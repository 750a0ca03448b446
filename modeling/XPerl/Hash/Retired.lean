import XPerl.Hash.Run

/-! The key of a lazily deleted entry over whole runs. -/

namespace XPerl.Hash

open XPerl.Framework XPerl.Framework.Exec

variable {V : Type} {cfg : Config} {op : Op V} {v v' v'' : View V} {k : StoredKey} {hek : HEK}
  {old val : HeVal V} {new : Option KeyId}

/-- The key that a call may add. -/
def Op.storedId (cfg : Config) : Op V → Option KeyId
  | .store k _ => some (commonQuery cfg k).id
  | .lvalue k _ _ => some (commonQuery cfg k).id
  | _ => none

namespace View

def LiveOrNew (v : View V) (r : Nat) : Prop := (∃ he ∈ v.live, he.ref = some r) ∨ v.nextRef ≤ r

/-- Keys and key references come from the entries before, or are new. -/
structure Grows (new : Option KeyId) (v v' : View V) : Prop where
  nextRef : v.nextRef ≤ v'.nextRef
  refs : ∀ he ∈ v'.live, ∀ r, he.ref = some r → v.LiveOrNew r
  ids : ∀ he' ∈ v'.live, (∃ he ∈ v.live, he.id = he'.id) ∨ ∃ k, new = some k ∧ he'.id = some k
  pending : ∀ hek, v'.pending = some hek → v.pending = some hek ∨ v.LiveOrNew hek.ref

namespace Grows

theorem of_subset (hl : ∀ he ∈ v'.live, he ∈ v.live) (hn : v'.nextRef = v.nextRef)
    (hp : ∀ hek, v'.pending = some hek → v.pending = some hek ∨ v.LiveOrNew hek.ref) :
    Grows new v v' :=
  ⟨hn.ge, fun he hm _ hr => Or.inl ⟨he, hl he hm, hr⟩, fun he hm => Or.inl ⟨he, hl he hm, rfl⟩, hp⟩

theorem same (h : Grows new v v') (hl : v''.live = v'.live) (hn : v''.nextRef = v'.nextRef)
    (hp : v''.pending = v'.pending) : Grows new v v'' :=
  ⟨hn ▸ h.nextRef, hl ▸ h.refs, hl ▸ h.ids, hp ▸ h.pending⟩

theorem refl (v : View V) : Grows new v v := of_subset (fun _ h => h) rfl fun _ h => Or.inl h

theorem liveOrNew (h : Grows new v v') {r : Nat} (hr : v'.LiveOrNew r) : v.LiveOrNew r := by
  rcases hr with ⟨he, hm, href⟩ | hr
  · exact h.refs he hm r href
  · exact Or.inr (h.nextRef.trans hr)

theorem trans (h : Grows new v v') (h' : Grows none v' v'') : Grows new v v'' := by
  refine ⟨h.nextRef.trans h'.nextRef, fun he hm r hr => ?_, fun he'' hm => ?_, fun hek hp => ?_⟩
  · exact h.liveOrNew (h'.refs he hm r hr)
  · rcases h'.ids he'' hm with ⟨he', hm', hid⟩ | ⟨k, hk, -⟩
    · rw [← hid]
      exact h.ids he' hm'
    · simp at hk
  · rcases h'.pending hek hp with hp' | hnew
    · exact h.pending hek hp'
    · exact Or.inr (h.liveOrNew hnew)

theorem of_update {k : KeyId} {f : HE V → HE V}
    (hid : ∀ he ∈ v.live, he.id = some k → (f he).id = some k)
    (href : ∀ he ∈ v.live, he.id = some k → (f he).ref = he.ref ∨ (f he).ref = some v.nextRef)
    (hl : v'.live = (v.update k f).live) (hn : v.nextRef ≤ v'.nextRef)
    (hp : v'.pending = v.pending) : Grows new v v' := by
  have hmem : ∀ he' ∈ v'.live, ∃ he ∈ v.live, he' = he ∨ he.id = some k ∧ he' = f he := by
    intro he' hm
    rw [hl] at hm
    obtain ⟨he, hmem, rfl⟩ := List.mem_map.mp hm
    refine ⟨he, hmem, ?_⟩
    split
    · rename_i h
      exact Or.inr ⟨h, rfl⟩
    · exact Or.inl rfl
  refine ⟨hn, fun he' hm r hr => ?_, fun he' hm => ?_, fun hek h => Or.inl (hp ▸ h)⟩
  · obtain ⟨he, hold, rfl | ⟨hk, rfl⟩⟩ := hmem he' hm
    · exact Or.inl ⟨he', hold, hr⟩
    · rcases href he hold hk with h | h
      · exact Or.inl ⟨he, hold, h.symm.trans hr⟩
      · obtain rfl : v.nextRef = r := Option.some.inj (h.symm.trans hr)
        exact Or.inr le_rfl
  · obtain ⟨he, hold, rfl | ⟨hk, rfl⟩⟩ := hmem he' hm
    · exact Or.inl ⟨he', hold, rfl⟩
    · exact Or.inl ⟨he, hold, hk.trans (hid he hold hk).symm⟩

theorem of_setVal (v : View V) (k : KeyId) (val : HeVal V) : Grows new v (v.setVal k val) :=
  of_update (f := fun he => { he with val := val }) (fun _ _ h => h) (fun _ _ _ => Or.inl rfl) rfl
    le_rfl rfl

theorem of_adopted (h : v.Ok) (hf : v.find k.id = some ⟨some hek, old⟩) :
    Grows new v (v.adopted k hek) := by
  have hid : hek.id = k.id := by simpa [HE.id] using (mem_of_find hf).2
  have honly : ∀ he ∈ v.live, he.id = some k.id → he = ⟨some hek, old⟩ := by
    intro he hm hid
    exact Option.some.inj ((h.find_of_mem hm hid).symm.trans hf)
  unfold adopted
  split
  · exact refl v
  · split
    · refine of_update (f := fun he => { he with hek := some { hek with wasUtf8 := k.wasUtf8 } })
        (k := k.id) (fun _ _ _ => congrArg some hid) (fun he hm hk => Or.inl ?_) rfl le_rfl rfl
      rw [honly he hm hk]
      rfl
    · exact of_update (f := fun he => { he with hek := some (k.hek false v.nextRef) }) (k := k.id)
        (fun _ _ _ => rfl) (fun _ _ _ => Or.inr rfl) rfl (Nat.le_succ _) rfl

theorem of_overwritten (h : v.Ok) (hf : v.find k.id = some ⟨some hek, old⟩) :
    Grows new v (v.overwritten k hek old val) := by
  unfold overwritten
  split
  · exact (of_adopted h hf).trans ((of_setVal _ k.id val).same rfl rfl rfl)
  · exact (of_adopted h hf).trans (of_setVal _ _ _)

theorem of_inserted (v : View V) (k : StoredKey) (val : HeVal V) :
    Grows (some k.id) v (v.inserted k val) := by
  refine ⟨Nat.le_succ _, fun he hm r hr => ?_, fun he hm => ?_, fun _ h => Or.inl h⟩
  · rcases List.mem_append.mp hm with hm | hm
    · exact Or.inl ⟨he, hm, hr⟩
    · rw [List.mem_singleton.mp hm] at hr
      obtain rfl : v.nextRef = r := Option.some.inj hr
      exact Or.inr le_rfl
  · rcases List.mem_append.mp hm with hm | hm
    · exact Or.inl ⟨he, hm, rfl⟩
    · rw [List.mem_singleton.mp hm]
      exact Or.inr ⟨k.id, rfl, rfl⟩

theorem of_remove {k : KeyId} (hf : v.find k = some ⟨some hek, val⟩) (indexed : Bool) :
    Grows none v (v.remove k hek indexed) := by
  refine of_subset (fun he hm => (List.mem_filter.mp hm).1) rfl fun p hp => ?_
  simp only [remove] at hp
  split at hp
  · obtain rfl : hek = p := by simpa using hp
    exact Or.inr (Or.inl ⟨_, (mem_of_find hf).1, rfl⟩)
  · exact Or.inl hp

theorem of_hides (h : Relation.ReflTransGen Hides v v') : Grows none v v' := by
  induction h with
  | refl => exact refl v
  | tail _ hstep ih =>
    obtain ⟨k, he, -, -, rfl⟩ := hstep
    exact ih.trans ((of_setVal _ k .placeholder).same rfl rfl rfl)

theorem of_sweeps (h : Relation.ReflTransGen Sweeps v v') : Grows none v v' := by
  induction h with
  | refl => exact refl v
  | tail _ hstep ih =>
    obtain ⟨k, hek, indexed, flags, hf, rfl⟩ := hstep
    exact ih.trans ((of_remove hf indexed).same rfl rfl rfl)

end Grows

end View

theorem Effect.grows (h : Effect cfg op v v') (hok : v.Ok) : View.Grows (op.storedId cfg) v v' := by
  cases h with
  | same => exact .refl _
  | store h =>
    cases h with
    | existing hek old hf => exact .of_overwritten hok hf
    | new => exact View.Grows.of_inserted v (commonQuery cfg _).stored _
  | lvalue h =>
    cases h with
    | ordinary hek old hf => exact .of_adopted hok hf
    | hidden hek val hf => exact .of_overwritten hok hf
    | new => exact View.Grows.of_inserted v (commonQuery cfg _).stored _
  | adopt hek hf => exact .of_adopted hok hf
  | delete indexed h =>
    cases h with
    | absent => exact .refl _
    | hidden => exact (View.Grows.of_setVal v _ .placeholder).same rfl rfl rfl
    | removed hek val hf => exact (View.Grows.of_remove hf indexed).same rfl rfl rfl
  | cleared =>
    refine .of_subset (fun _ hm => ?_) rfl fun _ hp => ?_
    · simp [View.cleared, View.emptied] at hm
    · simp [View.cleared, View.emptied] at hp
  | hides h => exact .of_hides h
  | hidden h => exact (View.Grows.of_hides h).same rfl rfl rfl
  | swept h => exact (View.Grows.of_sweeps h).same rfl rfl rfl
  | iterinit => exact .of_subset (fun _ h => h) rfl fun _ h => by simp [View.flush] at h
  | iternext => exact .of_subset (fun _ h => h) rfl fun _ h => by simp [View.flush] at h
  | setReadonly => exact .of_subset (fun _ h => h) rfl fun _ h => Or.inl h

/-- A key taken out of the hash: no live entry holds its reference. -/
structure View.Retired (hek : HEK) (v : View V) : Prop where
  taken : hek.ref < v.nextRef
  apart : ∀ he ∈ v.live, he.ref ≠ some hek.ref
  pending : ∀ p, v.pending = some p → p.ref = hek.ref → p = hek

namespace View

theorem Ok.count_ref (h : v.Ok) {r : Nat} (hr : r < v.nextRef) :
    (v.held ++ v.freed).count r = 1 := by
  rw [h.refs.count_eq]
  exact List.count_eq_one_of_mem List.nodup_range (List.mem_range.mpr hr)

theorem Ok.retired (h : v.Ok) (hp : v.pending = some hek) : v.Retired hek := by
  have htaken : hek.ref < v.nextRef := by
    rw [← List.mem_range, ← h.refs.mem_iff]
    simp [held, hp]
  have hcount := h.count_ref htaken
  refine ⟨htaken, fun he hm href => ?_, fun p hp' _ => ?_⟩
  · have hpos : 0 < (v.live.filterMap HE.ref).count hek.ref :=
      List.count_pos_iff.mpr (List.mem_filterMap.mpr ⟨he, hm, href⟩)
    simp only [held, hp, Option.map_some, Option.toList_some, List.count_append,
      List.count_singleton_self] at hcount
    omega
  · exact Option.some.inj (hp'.symm.trans hp)

theorem Retired.grows (h : v.Retired hek) (hg : Grows new v v') : v'.Retired hek := by
  have hgone : ¬v.LiveOrNew hek.ref := by
    rintro (⟨he, hm, href⟩ | hnew)
    · exact h.apart he hm href
    · exact absurd h.taken (Nat.not_lt.mpr hnew)
  refine ⟨lt_of_lt_of_le h.taken hg.nextRef, fun he hm href => ?_, fun p hp href => ?_⟩
  · exact hgone (hg.refs he hm _ href)
  · rcases hg.pending p hp with hp | hnew
    · exact h.pending p hp href
    · exact absurd (href ▸ hnew) hgone

theorem Retired.freed (h : v.Retired hek) (hok : v.Ok) :
    v.freed.count hek.ref = if v.pending = some hek then 0 else 1 := by
  have hcount := hok.count_ref h.taken
  have hlive : (v.live.filterMap HE.ref).count hek.ref = 0 := by
    refine List.count_eq_zero.mpr fun hm => ?_
    obtain ⟨he, hm, href⟩ := List.mem_filterMap.mp hm
    exact h.apart he hm href
  simp only [held, List.count_append, hlive] at hcount
  cases hp : v.pending with
  | none =>
    simp only [hp, Option.map_none, Option.toList_none, List.count_nil] at hcount
    simpa using hcount
  | some p =>
    simp only [hp, Option.map_some, Option.toList_some] at hcount
    by_cases heq : p = hek
    · subst heq
      simp only [List.count_singleton_self] at hcount
      rw [if_pos rfl]
      omega
    · have href : p.ref ≠ hek.ref := fun href => heq (h.pending p hp href)
      rw [List.count_singleton, if_neg (by simpa using href)] at hcount
      rw [if_neg (by simpa using heq)]
      omega

theorem Deletes.retires {k : KeyId} {indexed : Bool} (h : v.Deletes k indexed v')
    (hl : v.lazydel = false) (hl' : v'.lazydel = true) :
    ∃ hek, hek.id = k ∧ v'.pending = some hek ∧ v'.find k = none := by
  cases h with
  | absent => simp [hl] at hl'
  | hidden => exact absurd (hl.symm.trans hl') (by simp)
  | removed hek val hf =>
    refine ⟨hek, by simpa [HE.id] using (mem_of_find hf).2, ?_, ?_⟩
    · simp only [remove] at hl' ⊢
      split at hl'
      · rename_i hr
        rw [if_pos hr]
      · simp [hl] at hl'
    · show KeyedList.find HE.id (KeyedList.erase HE.id v.live (some k)) (some k) = none
      rw [KeyedList.find_erase, if_pos rfl]

theorem Grows.find_none (h : Grows new v v') {k : KeyId} (hf : v.find k = none)
    (hk : new ≠ some k) :
    v'.find k = none := by
  refine KeyedList.find_eq_none.mpr fun he' hm hid => ?_
  rcases h.ids he' hm with ⟨he, hm, hsame⟩ | ⟨k', hnew, hid'⟩
  · exact KeyedList.find_eq_none.mp hf he hm (hsame.trans hid)
  · rw [hid] at hid'
    exact hk (hnew.trans hid'.symm)

end View

theorem Effect.retires {k : KeyArg} {discard : Bool} (h : Effect cfg (.delete k discard) v v')
    (hl : v.lazydel = false) (hl' : v'.lazydel = true) :
    ∃ hek : HEK, hek.id = (deleteQuery cfg k).id ∧ v'.pending = some hek ∧
      v'.find (deleteQuery cfg k).id = none := by
  cases h with
  | same => exact absurd (hl.symm.trans hl') (by simp)
  | delete indexed h => exact h.retires hl hl'

variable [DecidableEq V] {hv : HV V} {svReadonly : V → Bool} {shareKeys discard : Bool}
  {ops₀ ops : List (Op V)} {karg : KeyArg}

theorem grows_of_call (wf : WF cfg hv) (hok : ¬op.dropsLazy svReadonly hv) :
    WF cfg (stateAfter (op.call cfg svReadonly) hv) ∧
      View.Grows (op.storedId cfg) hv.view (stateAfter (op.call cfg svReadonly) hv).view := by
  obtain ⟨wf', heff⟩ := wp_stateAfter (call_spec wf hok)
  exact ⟨wf', heff.grows wf.view⟩

theorem retired_of_keeps (wf : WF cfg hv) (hret : hv.view.Retired hek)
    (hkeep : Op.Keeps cfg svReadonly hv ops) : (Op.run cfg svReadonly hv ops).view.Retired hek := by
  refine (run_invariant (I := fun hv => WF cfg hv ∧ hv.view.Retired hek) ?_ ⟨wf, hret⟩ hkeep).2
  rintro hv op ⟨wf, hret⟩ hok
  obtain ⟨wf', hgrows⟩ := grows_of_call wf hok
  exact ⟨wf', hret.grows hgrows⟩

theorem find_none_of_keeps {k : KeyId} (wf : WF cfg hv) (hf : hv.view.find k = none)
    (hkeep : Op.Keeps cfg svReadonly hv ops) (hops : ∀ op ∈ ops, op.storedId cfg ≠ some k) :
    (Op.run cfg svReadonly hv ops).view.find k = none := by
  refine (run_invariant (I := fun hv => WF cfg hv ∧ hv.view.find k = none) ?_ ⟨wf, hf⟩
    (hkeep.and hops)).2
  rintro hv op ⟨wf, hf⟩ ⟨hok, hop⟩
  obtain ⟨wf', hgrows⟩ := grows_of_call wf hok
  exact ⟨wf', hgrows.find_none hf hop⟩

/-- The iterator of a hash with two keys on the first of them. -/
def onFirstKey : List (Op Nat) :=
  [.store (.bytes [1]) (.sv 10), .store (.bytes [2]) (.sv 20), .iterinit, .iternext false]

end XPerl.Hash
