import XPerl.Hash.Run

/-! Restricted hashes: a read-only hash keeps its keys. -/

namespace XPerl.Hash

open XPerl.Framework XPerl.Framework.Exec

variable {V : Type} {cfg : Config} {v v' v'' : View V} {k : StoredKey} {hek : HEK}
  {old val : HeVal V}

section Keys

/-- The keys, placeholders included, and their count are the same. -/
structure View.SameKeys (v v' : View V) : Prop where
  find : ∀ k, (v'.find k).isSome = (v.find k).isSome
  keys : v'.keys = v.keys

theorem View.SameKeys.refl (v : View V) : v.SameKeys v := ⟨fun _ => rfl, rfl⟩

theorem View.SameKeys.trans (h : v.SameKeys v') (h' : v'.SameKeys v'') : v.SameKeys v'' :=
  ⟨fun k => (h'.find k).trans (h.find k), h'.keys.trans h.keys⟩

theorem sameKeys_setVal (v : View V) (k : KeyId) (val : HeVal V) : v.SameKeys (v.setVal k val) := by
  refine ⟨fun k' => ?_, rfl⟩
  rw [View.find_setVal]
  split_ifs with hk
  · rw [Option.isSome_map, hk]
  · rfl

theorem sameKeys_adopted (hf : v.find k.id = some ⟨some hek, old⟩) :
    v.SameKeys (v.adopted k hek) := by
  have hkeys := congrArg View.keys (View.adopted_frame v k hek)
  refine ⟨fun k' => ?_, hkeys⟩
  rw [View.find_adopted hf]
  split_ifs with hk
  · rw [hk, hf]
    rfl
  · rfl

theorem sameKeys_overwritten (hf : v.find k.id = some ⟨some hek, old⟩) :
    v.SameKeys (v.overwritten k hek old val) := by
  have hadopted := sameKeys_adopted hf
  rw [View.overwritten]
  split_ifs
  · have hcounted : v.SameKeys ((v.adopted k hek).addPlaceholders (-1)) :=
      ⟨hadopted.find, hadopted.keys⟩
    exact hcounted.trans (sameKeys_setVal _ _ _)
  · exact hadopted.trans (sameKeys_setVal _ _ _)

theorem sameKeys_hides (h : Relation.ReflTransGen View.Hides v v') : v.SameKeys v' := by
  induction h with
  | refl => exact .refl v
  | @tail w _ _ hstep ih =>
    obtain ⟨k, he, -, -, rfl⟩ := hstep
    have hset := sameKeys_setVal w k .placeholder
    exact ih.trans ⟨hset.find, hset.keys⟩

variable [DecidableEq V] {op : Op V}

omit [DecidableEq V] in
/-- On a read-only hash only a sweep of the placeholders takes keys away. -/
theorem Effect.sameKeys (h : Effect cfg op v v') (hok : v.Ok) (hro : v.readonly = true)
    (hsweep : op ≠ .clearPlaceholders) : v.SameKeys v' := by
  cases h with
  | same => exact .refl v
  | store h =>
    cases h with
    | existing hek old hf => exact sameKeys_overwritten hf
    | new hf hwritable => exact absurd (hro.symm.trans hwritable) Bool.true_eq_false.mp
  | lvalue h =>
    cases h with
    | ordinary hek old hf => exact sameKeys_adopted hf
    | hidden hek val hf => exact sameKeys_overwritten hf
    | new hf hwritable => exact absurd (hro.symm.trans hwritable) Bool.true_eq_false.mp
  | adopt hek hf => exact sameKeys_adopted hf
  | @delete k _ _ _ indexed h =>
    cases h with
    | absent => exact .refl v
    | hidden he hf =>
      have hset := sameKeys_setVal v (deleteQuery cfg k).id .placeholder
      exact ⟨hset.find, hset.keys⟩
    | removed hek val hf hord hwritable =>
      exact absurd (hro.symm.trans hwritable) Bool.true_eq_false.mp
  | cleared _ hfree =>
    have hkeys : v.keys = 0 := not_not.1 fun hne => hfree ⟨hro, hne⟩
    have hlive : v.live = [] := List.eq_nil_of_length_eq_zero (hok.keys.symm.trans hkeys)
    refine ⟨fun k => ?_, hkeys.symm⟩
    rw [View.find, View.find, hlive]
    rfl
  | hides h => exact sameKeys_hides h
  | hidden h =>
    have hsame := sameKeys_hides h
    exact ⟨hsame.find, hsame.keys⟩
  | swept => exact absurd rfl hsweep
  | iterinit => exact ⟨fun _ => rfl, rfl⟩
  | iternext => exact ⟨fun _ => rfl, rfl⟩
  | setReadonly => exact ⟨fun _ => rfl, rfl⟩

variable {svReadonly : V → Bool} {hv : HV V} {ops : List (Op V)}

/-- Calls that leave a restricted hash restricted, and its placeholders in it. -/
def Op.Restrained (op : Op V) : Prop := op.setsReadonly = false ∧ op ≠ .clearPlaceholders

theorem run_sameKeys (wf : WF cfg hv) (hro : hv.readonly = true)
    (hkeep : Op.Keeps cfg svReadonly hv ops) (hops : ∀ op ∈ ops, op.Restrained) :
    WF cfg (Op.run cfg svReadonly hv ops) ∧ (Op.run cfg svReadonly hv ops).readonly = true ∧
      hv.view.SameKeys (Op.run cfg svReadonly hv ops).view := by
  induction ops generalizing hv with
  | nil => exact ⟨wf, hro, .refl _⟩
  | cons op ops ih =>
    obtain ⟨wf', heff⟩ := wp_stateAfter (call_spec wf hkeep.1)
    obtain ⟨hset, hsweep⟩ := hops op List.mem_cons_self
    have hro' := (heff.readonly hset).trans hro
    obtain ⟨wf'', hro'', hsame⟩ :=
      ih wf' hro' hkeep.2 fun o ho => hops o (List.mem_cons_of_mem op ho)
    exact ⟨wf'', hro'', (heff.sameKeys wf.view hro hsweep).trans hsame⟩

/-- A store under a key that the hash does not have throws, and changes nothing. -/
theorem store_refused (wf : WF cfg hv) (hro : hv.readonly = true) (k : KeyArg) (val : HeVal V)
    (hf : hv.view.find (commonQuery cfg k).id = none) :
    wp ((Op.store k val).call cfg svReadonly) hv (fun _ _ => False)
      fun _ hv' => hv'.view = hv.view := by
  obtain ⟨hout, -, hview⟩ :=
    (hvCommonWith_store_spec (fun _ _ => throw .undefined) wf k val).outcome
  have hspec : wp (View.store (commonQuery cfg k).stored val) hv.view (fun _ _ => False)
      fun _ v' => v' = hv.view := by
    refine wp_mono (View.store_spec _ _ _) (fun _ v' hs => ?_) fun _ _ h => h
    obtain ⟨hs, -⟩ := hs
    cases hs with
    | existing hek old hf' => exact Option.some_ne_none _ (hf'.symm.trans hf)
    | new hf' hwritable => exact Bool.true_eq_false.mp (hro.symm.trans hwritable)
  rw [wp_iff, ← hout, ← hview] at hspec
  rw [Op.call, wp_map, wp_iff]
  exact hspec

omit [DecidableEq V] in
theorem found_isSome (wf : WF cfg hv) (k : KeyId) :
    (oaFind cfg.build hv k).map (·.entry.isSome) = some (hv.view.find k).isSome := by
  rcases oaFind_spec wf k with ⟨i, he, slot, hfirst, hid, hfind, -⟩ | ⟨slot, hnone, hfind, -⟩
  · rw [hfind, wf.view.find_of_mem (mem_live.2 ⟨i, hfirst⟩) hid]
    rfl
  · have hview : hv.view.find k = none := KeyedList.find_eq_none.2 hnone
    rw [hfind, hview]
    rfl

/-- While a hash is locked the same keys are found in it, whatever is stored, deleted or cleared. A
store of another key throws, and changes nothing. -/
theorem restricted_keeps_keys (cfg : Config) (svReadonly : V → Bool) (shareKeys : Bool)
    (before ops : List (Op V)) (hbefore : Op.Keeps cfg svReadonly (newHV shareKeys) before)
    (hv : HV V) (hhv : hv = Op.run cfg svReadonly (newHV shareKeys) before)
    (hro : hv.readonly = true) (hkeep : Op.Keeps cfg svReadonly hv ops)
    (hops : ∀ op ∈ ops, op.Restrained) :
    (∀ k, (oaFind cfg.build (Op.run cfg svReadonly hv ops) k).map (·.entry.isSome) =
      (oaFind cfg.build hv k).map (·.entry.isSome)) ∧
    (Op.run cfg svReadonly hv ops).keys = hv.keys ∧
    ∀ k val, (oaFind cfg.build hv (commonQuery cfg k).id).map (·.entry.isSome) = some false →
      wp ((Op.store k val).call cfg svReadonly) (Op.run cfg svReadonly hv ops) (fun _ _ => False)
        fun _ hv' => hv'.view = (Op.run cfg svReadonly hv ops).view := by
  have wf : WF cfg hv := hhv ▸ run_wf (newHV_wf cfg shareKeys) hbefore
  obtain ⟨wf', hro', hsame⟩ := run_sameKeys wf hro hkeep hops
  refine ⟨fun k => ?_, hsame.keys, fun k val hfound => store_refused wf' hro' k val ?_⟩
  · rw [found_isSome wf', found_isSome wf, hsame.find]
  · rw [found_isSome wf, ← hsame.find] at hfound
    exact Option.isNone_iff_eq_none.1 (Option.isSome_eq_false_iff.1 (Option.some.inj hfound))

/-- A locked hash whose one key is deleted and stored again. -/
theorem restricted_keeps_keys_deleted :
    (Op.run (additive .chains 0 (by decide)) (fun _ => false)
      (Op.run (additive .chains 0 (by decide)) (fun _ => false) (newHV true)
        [.store (.bytes [1]) (.sv 10), .setReadonly true])
      [.delete (.bytes [1]) false, .store (.bytes [1]) (.sv 11)]).keys = 1 := by
  have hkeys := (restricted_keeps_keys (additive .chains 0 (by decide)) (fun _ => false) true
    [.store (.bytes [1]) (.sv 10), .setReadonly true]
    [.delete (.bytes [1]) false, .store (.bytes [1]) (.sv 11)] (by decide) _ rfl (by decide)
    (by decide) (by
      intro op hop
      simp only [List.mem_cons, List.not_mem_nil, or_false] at hop
      rcases hop with rfl | rfl <;> exact ⟨rfl, by decide⟩)).2.1
  exact hkeys.trans (by decide)

end Keys

end XPerl.Hash
