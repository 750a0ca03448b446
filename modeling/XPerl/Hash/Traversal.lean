import XPerl.Hash.Run

/-! Iteration under deletion and reservation. -/

namespace XPerl.Hash

open XPerl.Framework XPerl.Framework.Exec

variable {V : Type} {cfg : Config} {hv hv' : HV V} {seen : List KeyId}

/-- Calls of a traversal. None of them inserts a key. -/
def Op.traverses : Op V → Bool
  | .iternext _ => true
  | .delete _ _ => true
  | .ksplit _ => true
  | _ => false

/-- The key that a call of hv_iternext_flags returned. -/
def returnedId : Op V × Except PerlError (Outcome V) → Option KeyId
  | (.iternext _, .ok (.entry (some he))) => he.id
  | _ => none

/-- The keys returned by the calls of a run. -/
def returnedIds (calls : List (Op V × Except PerlError (Outcome V))) : List KeyId :=
  calls.filterMap returnedId

theorem returnedIds_cons (call : Op V × Except PerlError (Outcome V))
    (calls : List (Op V × Except PerlError (Outcome V))) :
    returnedIds (call :: calls) = (returnedId call).toList ++ returnedIds calls := by
  unfold returnedIds
  rw [List.filterMap_cons]
  cases returnedId call <;> rfl

theorem returnedId_error (op : Op V) (e : PerlError) : returnedId (op, .error e) = none := by
  cases op <;> rfl

def Ended (calls : List (Op V × Except PerlError (Outcome V))) : Prop :=
  ∃ want, (.iternext want, .ok (.entry none)) ∈ calls

/-- Every ordinary entry is either still ahead of the iterator or was returned once. -/
structure Traversing (cfg : Config) (hv : HV V) (seen : List KeyId) : Prop where
  wf : WF cfg hv
  inserted : hv.cursor.inserted = false
  ahead : ∀ he ∈ hv.live, he.val.isPlaceholder = false → ∀ k, he.id = some k →
    he ∈ hv.unvisited → seen.count k = 0
  behind : ∀ he ∈ hv.live, he.val.isPlaceholder = false → ∀ k, he.id = some k →
    he ∉ hv.unvisited → seen.count k = 1

theorem unvisited_sublist (hv : HV V) : hv.unvisited.Sublist hv.live := by
  unfold HV.unvisited HV.live
  rw [← SparseList.drop_reduceOption]
  exact List.drop_sublist _ _

theorem Traversing.of_cursorKept (h : Traversing cfg hv seen) (wf' : WF cfg hv')
    (hkept : CursorKept hv hv') : Traversing cfg hv' seen := by
  refine ⟨wf', hkept.inserted.trans h.inserted, fun he hm hord k hid hun => ?_,
    fun he hm hord k hid hun => ?_⟩
  · obtain ⟨hm', hiff⟩ := hkept.live he hm hord
    exact h.ahead he hm' hord k hid (hiff.mp hun)
  · obtain ⟨hm', hiff⟩ := hkept.live he hm hord
    exact h.behind he hm' hord k hid fun hun' => hun (hiff.mpr hun')

theorem Kept.cursorKept (h : Kept cfg hv hv') : CursorKept hv hv' := by
  have hlive : hv'.live = hv.live := congrArg View.live h.view
  have hunv : hv'.unvisited = hv.unvisited := congrArg Cursor.unvisited h.cursor
  refine ⟨congrArg Cursor.inserted h.cursor, fun he hm _ => ?_⟩
  rw [hlive] at hm
  rw [hunv]
  exact ⟨hm, Iff.rfl⟩

variable {he : HE V} {want : Bool}

theorem wanted_of_ordinary (want : Bool) (h : he.val.isPlaceholder = false) :
    wanted want he = true := by
  simp [wanted, h]

theorem iterinit_traversing (wf : WF cfg hv) :
    returns (hvIterinit cfg) hv fun _ hv' => Traversing cfg hv' [] := by
  refine wp_of_returns (hvIterinit_spec wf) ?_
  rintro n hv' ⟨-, ⟨wf', -⟩, hunv, hins, -⟩
  exact ⟨wf', hins, fun _ _ _ _ _ _ => rfl, fun he hm _ _ _ hun => absurd (hunv ▸ hm) hun⟩

theorem Traversing.returned (h : Traversing cfg hv seen)
    (wf' : WF cfg hv') (hins : hv'.cursor.inserted = false) (hlive : hv'.live = hv.live)
    (hnext : NextIn want hv.unvisited (some he) hv'.unvisited) {k : KeyId} (hid : he.id = some k) :
    Traversing cfg hv' (seen ++ [k]) := by
  obtain ⟨-, pre, hsplit, hpre⟩ := hnext
  have hnd : (hv.unvisited.map HE.id).Nodup :=
    wf'.view.distinct.sublist ((hlive ▸ unvisited_sublist hv).map HE.id)
  rw [hsplit, List.map_append, List.map_cons, List.nodup_append] at hnd
  obtain ⟨-, hnd, -⟩ := hnd
  have hnot : he.id ∉ hv'.unvisited.map HE.id := (List.nodup_cons.mp hnd).1
  have hother : ∀ x ∈ hv'.live, ∀ k', x.id = some k' → x ≠ he → k' ≠ k := by
    rintro x hx k' hid' hne rfl
    have hmem : he ∈ hv'.live := by
      rw [hlive]
      exact (unvisited_sublist hv).subset (by simp [hsplit])
    have h1 := wf'.view.find_of_mem hx hid'
    have h2 := wf'.view.find_of_mem hmem hid
    exact hne (Option.some.inj (h1.symm.trans h2))
  have hahead : ∀ x, x.val.isPlaceholder = false → x ≠ he →
      (x ∈ hv.unvisited ↔ x ∈ hv'.unvisited) := by
    intro x hord hne
    rw [hsplit]
    have hx : x ∉ pre := by
      intro hm
      have hunwanted := hpre x hm
      simp [wanted_of_ordinary want hord] at hunwanted
    simp [hx, hne]
  refine ⟨wf', hins, fun x hm hord k' hid' hun => ?_, fun x hm hord k' hid' hun => ?_⟩
  · have hne : x ≠ he := by
      rintro rfl
      exact hnot (List.mem_map_of_mem hun)
    have hzero := h.ahead x (hlive ▸ hm) hord k' hid' ((hahead x hord hne).mpr hun)
    have hk := hother x hm k' hid' hne
    simp [List.count_append, hzero, hk.symm]
  · by_cases hx : x = he
    · subst hx
      obtain rfl : k = k' := Option.some.inj (hid.symm.trans hid')
      have hzero := h.ahead x (hlive ▸ hm) hord k hid (by simp [hsplit])
      simp [List.count_append, hzero]
    · have hone := h.behind x (hlive ▸ hm) hord k' hid' fun hun' => hun ((hahead x hord hx).mp hun')
      have hk := hother x hm k' hid' hx
      simp [List.count_append, hone, hk.symm]

theorem Traversing.finished (h : Traversing cfg hv seen) {rest : List (HE V)}
    (hnext : NextIn want hv.unvisited none rest) {k : KeyId}
    (hk : (hv.view.lookup k).isSome = true) : seen.count k = 1 := by
  obtain ⟨he, hlookup⟩ := Option.isSome_iff_exists.mp hk
  obtain ⟨hfind, hord⟩ := Option.filter_eq_some_iff.mp hlookup
  have hord : he.val.isPlaceholder = false := by simpa using hord
  obtain ⟨hm, hid⟩ := View.mem_of_find hfind
  refine h.behind he hm hord k hid fun hun => ?_
  have hunwanted := hnext he hun
  simp [wanted_of_ordinary want hord] at hunwanted

variable [DecidableEq V] {svReadonly : V → Bool} {shareKeys : Bool} {op : Op V}
  {ops₀ ops : List (Op V)}

theorem Traversing.step (h : Traversing cfg hv seen) (hop : op.traverses = true) :
    wp (op.call cfg svReadonly) hv
      (fun r hv' => (∀ want, op = .iternext want → r = .entry none →
          ∀ k, (hv.view.lookup k).isSome = true → seen.count k = 1) ∧
        ((∀ want, op = .iternext want → r ≠ .entry none) →
          Traversing cfg hv' (seen ++ (returnedId (op, .ok r)).toList)))
      fun _ hv' => Traversing cfg hv' seen := by
  cases op with
  | iternext want =>
    rw [Op.call, wp_map]
    refine wp_of_returns (hvIternextFlags_spec h.wf want) ?_
    rintro r hv' ⟨⟨wf', hview⟩, hnext⟩
    obtain ⟨hnext, hins⟩ := hnext h.inserted
    have hlive : hv'.live = hv.live := congrArg View.live hview
    cases r with
    | none => exact ⟨fun _ _ _ k hk => h.finished hnext hk, fun hne => absurd rfl (hne want rfl)⟩
    | some he =>
      refine ⟨fun _ _ hnone => by simp at hnone, fun _ => ?_⟩
      have hmem : he ∈ hv.live := by
        obtain ⟨-, pre, hsplit, -⟩ := hnext
        exact (unvisited_sublist hv).subset (by simp [hsplit])
      obtain ⟨hek, hhek⟩ := Option.isSome_iff_exists.mp (h.wf.view.heks he hmem)
      have hid : he.id = some hek.id := by simp [HE.id, hhek]
      have hret := h.returned wf' hins hlive hnext hid
      simpa [returnedId, hid] using hret
  | delete k discard =>
    rw [Op.call, wp_map]
    refine wp_mono (hvDelete_kept h.wf svReadonly discard k) ?_ ?_
    · rintro r hv' ⟨wf', hkept, -⟩
      refine ⟨fun _ hop => by simp at hop, fun _ => ?_⟩
      simpa [returnedId] using h.of_cursorKept wf' hkept
    · rintro e hv' rfl
      exact h
  | ksplit n =>
    rw [Op.call, wp_map]
    refine wp_mono (hvKsplit_spec h.wf n) ?_ ?_
    · rintro - hv' hkept
      refine ⟨fun _ hop => by simp at hop, fun _ => ?_⟩
      simpa [returnedId] using h.of_cursorKept hkept.wf hkept.cursorKept
    · rintro - hv' hkept
      exact h.of_cursorKept hkept.wf hkept.cursorKept
  | _ => simp [Op.traverses] at hop

theorem traversing_of_run (h : Traversing cfg hv seen) (hops : ∀ op ∈ ops, op.traverses = true)
    (hend : ¬Ended (trace (Op.call cfg svReadonly) hv ops)) :
    Traversing cfg (Op.run cfg svReadonly hv ops)
      (seen ++ returnedIds (trace (Op.call cfg svReadonly) hv ops)) := by
  induction ops generalizing hv seen with
  | nil => simpa [trace, returnedIds, Exec.run] using h
  | cons op ops ih =>
    have hfirst : ∀ want, op = .iternext want →
        outcome (op.call cfg svReadonly) hv ≠ .ok (.entry none) := by
      rintro want rfl hnone
      exact hend ⟨want, by simp [trace, hnone]⟩
    have hrest : ¬Ended (trace (Op.call cfg svReadonly)
        (stateAfter (op.call cfg svReadonly) hv) ops) := by
      rintro ⟨want, hmem⟩
      exact hend ⟨want, List.mem_cons_of_mem _ hmem⟩
    obtain ⟨hok, herr⟩ : _ ∧ ∀ e, outcome (op.call cfg svReadonly) hv = .error e → _ :=
      wp_iff.mp (h.step (hops op (by simp)))
    have hnext : Traversing cfg (stateAfter (op.call cfg svReadonly) hv)
        (seen ++ (returnedId (op, outcome (op.call cfg svReadonly) hv)).toList) := by
      cases hout : outcome (op.call cfg svReadonly) hv with
      | ok r =>
        refine (hok r hout).2 fun want hop hr => hfirst want hop ?_
        rw [hout, hr]
      | error e =>
        rw [returnedId_error, Option.toList_none, List.append_nil]
        exact herr e hout
    have hrun := ih hnext (fun o ho => hops o (by simp [ho])) hrest
    rw [List.append_assoc, ← returnedIds_cons] at hrun
    exact hrun

/-- What a traversal keeps: no key comes back. -/
structure Steady (cfg : Config) (hv hv' : HV V) : Prop where
  wf : WF cfg hv'
  inserted : hv'.cursor.inserted = false
  hidden : ∀ k, hv.view.lookup k = none → hv'.view.lookup k = none

omit [DecidableEq V] in
theorem Steady.refl (wf : WF cfg hv) (hins : hv.cursor.inserted = false) : Steady cfg hv hv :=
  ⟨wf, hins, fun _ h => h⟩

omit [DecidableEq V] in
theorem Steady.trans {hv'' : HV V} (h : Steady cfg hv hv') (h' : Steady cfg hv' hv'') :
    Steady cfg hv hv'' := ⟨h'.wf, h'.inserted, fun k hk => h'.hidden k (h.hidden k hk)⟩

theorem steady_of_call (wf : WF cfg hv) (hins : hv.cursor.inserted = false)
    (hop : op.traverses = true) :
    wp (op.call cfg svReadonly) hv
      (fun r hv' => Steady cfg hv hv' ∧ ∀ want he, op = .iternext want → r = .entry (some he) →
        he ∈ hv.live ∧ wanted want he = true)
      fun _ hv' => Steady cfg hv hv' := by
  cases op with
  | iternext want =>
    rw [Op.call, wp_map]
    refine wp_of_returns (hvIternextFlags_spec wf want) ?_
    rintro r hv' ⟨⟨wf', hview⟩, hnext⟩
    obtain ⟨hnext, hins'⟩ := hnext hins
    refine ⟨⟨wf', hins', fun k hk => ?_⟩, ?_⟩
    · rw [hview]
      exact hk
    · rintro want' he ⟨⟩ ⟨⟩
      obtain ⟨hwanted, pre, hsplit, -⟩ := hnext
      exact ⟨(unvisited_sublist hv).subset (by simp [hsplit]), hwanted⟩
  | delete k discard =>
    rw [Op.call, wp_map]
    refine wp_mono (hvDelete_kept wf svReadonly discard k) ?_ ?_
    · rintro r hv' ⟨wf', hkept, hdel⟩
      exact ⟨⟨wf', hkept.inserted.trans hins, hdel.lookup.2⟩, fun _ _ hop => by simp at hop⟩
    · rintro e hv' rfl
      exact .refl wf hins
  | ksplit n =>
    rw [Op.call, wp_map]
    have hsteady : ∀ hv', Kept cfg hv hv' → Steady cfg hv hv' := fun hv' hkept =>
      ⟨hkept.wf, (congrArg Cursor.inserted hkept.cursor).trans hins, fun _ h => hkept.view ▸ h⟩
    refine wp_mono (hvKsplit_spec wf n) ?_ fun _ => hsteady
    exact fun _ hv' hkept => ⟨hsteady hv' hkept, fun _ _ hop => by simp at hop⟩
  | _ => simp [Op.traverses] at hop

theorem steady_of_run (wf : WF cfg hv) (hins : hv.cursor.inserted = false)
    (hops : ∀ op ∈ ops, op.traverses = true) :
    Steady cfg hv (Op.run cfg svReadonly hv ops) := by
  have hmoves : Along (Op.call cfg svReadonly) (fun _ op => op.traverses = true) hv ops :=
    along_of_forall (fun _ _ h => h) hops
  refine run_invariant (I := Steady cfg hv) ?_ (.refl wf hins) hmoves
  intro hv₁ op h hop
  refine h.trans (wp_stateAfter (wp_mono (steady_of_call h.wf h.inserted hop) ?_ fun _ _ h => h))
  exact fun _ _ h => h.1

theorem deleted_not_returned (wf : WF cfg hv) (hins : hv.cursor.inserted = false)
    {before after : List (Op V)} {k : KeyArg} {discard : Bool} {sv : Option V}
    (hops : ∀ op ∈ before ++ .delete k discard :: after, op.traverses = true)
    (hdel : outcome ((Op.delete k discard).call cfg svReadonly) (Op.run cfg svReadonly hv before) =
      .ok (.value sv))
    (hret : outcome ((Op.iternext want).call cfg svReadonly)
      (Op.run cfg svReadonly hv (before ++ .delete k discard :: after)) = .ok (.entry (some he)))
    (hid : he.id = some (deleteQuery cfg k).id) : want = true ∧ he.val = .placeholder := by
  set id := (deleteQuery cfg k).id
  have hbefore : Steady cfg hv (Op.run cfg svReadonly hv before) :=
    steady_of_run wf hins fun op ho => hops op (by simp [ho])
  set hv₁ := Op.run cfg svReadonly hv before
  have hcall : wp ((Op.delete k discard).call cfg svReadonly) hv₁
      (fun _ hv' => WF cfg hv' ∧ CursorKept hv₁ hv' ∧ hv₁.view.Deletes id (!hv₁.isLinear) hv'.view)
      fun _ hv' => hv' = hv₁ := by
    rw [Op.call, wp_map]
    exact hvDelete_kept hbefore.wf svReadonly discard k
  obtain ⟨wf₂, hkept, hdel⟩ := (wp_iff.mp hcall).1 _ hdel
  have hafter : Steady cfg _ (Op.run cfg svReadonly
      (stateAfter ((Op.delete k discard).call cfg svReadonly) hv₁) after) :=
    steady_of_run wf₂ (hkept.inserted.trans hbefore.inserted) fun op ho => hops op (by simp [ho])
  rw [show Op.run cfg svReadonly hv (before ++ .delete k discard :: after) = _ from run_append] at hret
  have hnone := hafter.hidden id hdel.lookup.1
  have hnext : (Op.iternext want : Op V).traverses = true := rfl
  obtain ⟨-, hreturned⟩ := (wp_iff.mp (steady_of_call hafter.wf hafter.inserted hnext)).1 _ hret
  obtain ⟨hm, hwanted⟩ := hreturned want he rfl rfl
  have hfind := hafter.wf.view.find_of_mem hm hid
  have hplaceholder : he.val.isPlaceholder = true := by
    by_contra hord
    simp [View.lookup, hfind, hord] at hnone
  simp only [wanted, hplaceholder, Bool.not_true, Bool.or_false] at hwanted
  exact ⟨hwanted, isPlaceholder_iff.mp hplaceholder⟩

/-- Three keys in an index, of which the current and an unvisited one are deleted, and a larger
index in between. -/
def threeKeys : List (Op Nat) :=
  [.store (.bytes [1]) (.sv 10), .store (.bytes [2]) (.sv 20), .store (.bytes [3]) (.sv 30),
    .store (.bytes [4]) (.sv 40)]

def deletingTraversal : List (Op Nat) :=
  [.iternext false, .delete (.bytes [1]) false, .ksplit 40, .iternext false,
    .delete (.bytes [3]) false, .iternext true]

end XPerl.Hash
