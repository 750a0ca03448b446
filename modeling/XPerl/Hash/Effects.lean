import XPerl.Hash.View

/-! What a store, an lvalue fetch and a deletion make of the view. -/

namespace XPerl.Hash

open XPerl.Framework XPerl.Framework.Exec

variable {V : Type}

namespace View

def adopted (v : View V) (k : StoredKey) (hek : HEK) : View V :=
  if hek.wasUtf8 = k.wasUtf8 then v
  else if hek.notShared then
    { v.update k.id fun he => { he with hek := some { hek with wasUtf8 := k.wasUtf8 } } with
      hasKFlags := v.hasKFlags || k.flagged }
  else
    { v.update k.id fun he => { he with hek := some (k.hek false v.nextRef) } with
      freed := v.freed ++ [hek.ref], nextRef := v.nextRef + 1, hasKFlags := v.hasKFlags || k.flagged }

def fresh (v : View V) (k : StoredKey) (val : HeVal V) : HE V :=
  ⟨some (k.hek (!v.shareKeys) v.nextRef), val⟩

def inserted (v : View V) (k : StoredKey) (val : HeVal V) : View V :=
  { v with
    live := v.live ++ [v.fresh k val]
    keys := v.keys + 1
    nextRef := v.nextRef + 1
    placeholders := if val.isPlaceholder then some (v.placeholders.getD 0 + 1) else v.placeholders
    hasKFlags := v.hasKFlags || k.flagged }

/-- The view after an assignment to an entry with the value `old`. -/
def overwritten (v : View V) (k : StoredKey) (hek : HEK) (old val : HeVal V) : View V :=
  (if old.isPlaceholder && !val.isPlaceholder then (v.adopted k hek).addPlaceholders (-1)
    else v.adopted k hek).setVal k.id val

variable {v v' : View V} {k : StoredKey} {hek : HEK} {old val : HeVal V} {he : HE V}

theorem wp_adopt {Q : Unit → View V → Prop} {E : PerlError → View V → Prop}
    (hQ : Q () (v.adopted k hek)) (hE : E .keyLengthOutOfRange v) : wp (adopt k hek) v Q E := by
  unfold adopt
  unfold adopted at hQ
  by_cases hw : hek.wasUtf8 = k.wasUtf8
  · rw [if_pos hw] at hQ
    rw [if_neg (not_not.mpr hw)]
    exact hQ
  · rw [if_neg hw] at hQ
    rw [if_pos hw]
    by_cases hn : hek.notShared = true
    · rw [if_pos hn] at hQ
      rw [if_pos hn]
      exact hQ
    · rw [if_neg hn] at hQ
      rw [if_neg hn]
      simp only [wp_bind, wp_modify, wp_throwIf]
      exact ⟨fun _ => hE, fun _ => hQ⟩

theorem wp_insert {Q : Option (HE V) → View V → Prop} {E : PerlError → View V → Prop}
    (hQ : Q (some (v.fresh k val)) (v.inserted k val)) (hE : E .keyLengthOutOfRange v) :
    wp (insert k val) v Q E := by
  simp only [insert, wp_bind, wp_get, wp_throwIf, wp_set, wp_pure]
  exact ⟨fun _ => hE, fun _ => hQ⟩

theorem find_cases (v : View V) (k : KeyId) :
    (∃ hek old, v.find k = some ⟨some hek, old⟩ ∧ hek.id = k) ∨ v.find k = none := by
  cases hf : v.find k with
  | none => exact Or.inr rfl
  | some he =>
    obtain ⟨-, hid⟩ := mem_of_find hf
    obtain ⟨hek?, old⟩ := he
    cases hek? with
    | none => simp [HE.id] at hid
    | some hek => exact Or.inl ⟨hek, old, rfl, by simpa [HE.id] using hid⟩

/-- A store overwrites the entry with its key, or adds one. -/
inductive Stores (v : View V) (k : StoredKey) (val : HeVal V) : View V → Prop
  | existing (hek : HEK) (old : HeVal V) (hf : v.find k.id = some ⟨some hek, old⟩) :
      Stores v k val (v.overwritten k hek old val)
  | new (hf : v.find k.id = none) (hro : v.readonly = false) : Stores v k val (v.inserted k val)

/-- An lvalue fetch leaves an ordinary value, replaces a placeholder, or adds an entry. -/
inductive Lvalues (v : View V) (k : StoredKey) (emptyHe : Bool) (sv : V) : View V → Prop
  | ordinary (hek : HEK) (old : HeVal V) (hf : v.find k.id = some ⟨some hek, old⟩)
      (hord : old.isPlaceholder = false) : Lvalues v k emptyHe sv (v.adopted k hek)
  | hidden (hek : HEK) (val : HeVal V) (hf : v.find k.id = some ⟨some hek, .placeholder⟩)
      (hval : val = .sv sv ∨ emptyHe = true ∧ val = .null) :
      Lvalues v k emptyHe sv (v.overwritten k hek .placeholder val)
  | new (hf : v.find k.id = none) (hro : v.readonly = false) :
      Lvalues v k emptyHe sv (v.inserted k (if emptyHe then .null else .sv sv))

/-- The key of an entry after it took over the encoding flag of `k`. -/
def adoptedHek (v : View V) (k : StoredKey) (hek : HEK) : HEK :=
  if hek.wasUtf8 = k.wasUtf8 then hek
  else if hek.notShared then { hek with wasUtf8 := k.wasUtf8 }
  else k.hek false v.nextRef

theorem adoptedHek_wasUtf8 : (v.adoptedHek k hek).wasUtf8 = k.wasUtf8 := by
  unfold adoptedHek
  split_ifs with h
  · exact h
  · rfl
  · rfl

theorem find_setVal (k k' : KeyId) (val : HeVal V) :
    (v.setVal k val).find k' =
      if k' = k then (v.find k).map fun he => { he with val := val } else v.find k' := by
  have := KeyedList.find_update HE.id (l := v.live) (c := some k)
    (f := fun he => { he with val := val }) (fun _ _ h => h) (some k')
  simp only [Option.some.injEq] at this
  exact this

theorem find_adopted (hf : v.find k.id = some ⟨some hek, old⟩) (k' : KeyId) :
    (v.adopted k hek).find k' =
      if k' = k.id then some ⟨some (v.adoptedHek k hek), old⟩ else v.find k' := by
  have hid : hek.id = k.id := by simpa [HE.id] using (mem_of_find hf).2
  have hupd : ∀ hek' : HEK, hek'.id = k.id →
      (v.update k.id fun he => { he with hek := some hek' }).find k' =
        if k' = k.id then some ⟨some hek', old⟩ else v.find k' := by
    intro hek' hid'
    have := KeyedList.find_update HE.id (l := v.live) (c := some k.id)
      (f := fun he => { he with hek := some hek' }) (fun _ _ _ => congrArg some hid') (some k')
    have hf' : KeyedList.find HE.id v.live (some k.id) = some ⟨some hek, old⟩ := hf
    simp only [Option.some.injEq, hf', Option.map_some] at this
    exact this
  unfold adopted adoptedHek
  by_cases hw : hek.wasUtf8 = k.wasUtf8
  · simp only [hw, if_true]
    split
    · rename_i hk
      rw [hk, hf]
    · rfl
  · by_cases hn : hek.notShared = true
    · simp only [hw, if_false, hn, if_true]
      exact hupd _ hid
    · simp only [hw, if_false, hn, Bool.false_eq_true]
      exact hupd _ rfl

theorem find_inserted (hf : v.find k.id = none) (k' : KeyId) :
    (v.inserted k val).find k' = if k' = k.id then some (v.fresh k val) else v.find k' := by
  have := KeyedList.find_append HE.id (l := v.live) (a := v.fresh k val) (some k')
  have hid : (v.fresh k val).id = some k.id := rfl
  simp only [hid, Option.some.injEq] at this
  refine this.trans ?_
  by_cases hk : k' = k.id
  · have hf' : KeyedList.find HE.id v.live (some k.id) = none := hf
    simp [hk, hf']
  · simp only [hk, Ne.symm hk, if_false, Option.or_none]
    rfl

theorem adopted_frame (v : View V) (k : StoredKey) (hek : HEK) :
    v.adopted k hek = { v with
      live := (v.adopted k hek).live, hasKFlags := (v.adopted k hek).hasKFlags
      freed := (v.adopted k hek).freed, nextRef := (v.adopted k hek).nextRef } := by
  unfold adopted
  split
  · rfl
  · split <;> rfl

theorem adopted_readonly (v : View V) (k : StoredKey) (hek : HEK) :
    (v.adopted k hek).readonly = v.readonly := by
  rw [adopted_frame]

theorem overwritten_readonly (v : View V) (k : StoredKey) (hek : HEK) (old val : HeVal V) :
    (v.overwritten k hek old val).readonly = v.readonly := by
  unfold overwritten
  split <;> exact adopted_readonly v k hek

theorem adopted_ok (h : v.Ok) (hf : v.find k.id = some ⟨some hek, old⟩) : (v.adopted k hek).Ok := by
  obtain ⟨hm, hid⟩ := mem_of_find hf
  have hid' : hek.id = k.id := by simpa [HE.id] using hid
  unfold adopted
  split
  · exact h
  · split
    · have hok := h.update (f := fun he => { he with hek := some { hek with wasUtf8 := k.wasUtf8 } })
        hm hid (congrArg some hid') rfl
      exact ⟨hok.heks, hok.keys, hok.distinct, hok.pending, hok.refs⟩
    · have hok := h.share (f := fun he => { he with hek := some (k.hek false v.nextRef) }) hm rfl hid
        rfl rfl
      exact ⟨hok.heks, hok.keys, hok.distinct, hok.pending, hok.refs⟩

theorem adopted_count (h : v.Ok) (hf : v.find k.id = some ⟨some hek, old⟩) :
    placeholderCount (v.adopted k hek).live = placeholderCount v.live := by
  unfold adopted
  split
  · rfl
  · split
    · exact Nat.add_right_cancel
        (count_update h hf fun he => { he with hek := some { hek with wasUtf8 := k.wasUtf8 } })
    · exact Nat.add_right_cancel
        (count_update h hf fun he => { he with hek := some (k.hek false v.nextRef) })

theorem adopted_adopted (v : View V) (k : StoredKey) (hek : HEK) :
    (v.adopted k hek).adopted k (v.adoptedHek k hek) = v.adopted k hek := by
  rw [adopted, if_pos adoptedHek_wasUtf8]

theorem store_spec (v : View V) (k : StoredKey) (val : HeVal V) :
    wp (store k val) v (fun r v' => Stores v k val v' ∧ r = v'.find k.id) fun _ v' => v' = v := by
  simp only [store, wp_bind, wp_get]
  rcases find_cases v k.id with ⟨hek, old, hf, -⟩ | hf
  · rw [hf]
    simp only [wp_bind, wp_modify, wp_map, wp_get]
    exact wp_adopt ⟨.existing hek old hf, trivial⟩ rfl
  · rw [hf]
    simp only [wp_bind, wp_throwIf]
    refine ⟨fun _ => trivial, fun hro => ⟨fun _ => trivial, fun _ => wp_insert ⟨.new hf ?_, ?_⟩ rfl⟩⟩
    · simpa using hro
    · rw [find_inserted hf, if_pos rfl]

theorem lvalue_spec (v : View V) (k : StoredKey) (emptyHe : Bool) (sv : V) :
    wp (lvalue k emptyHe sv) v (fun r v' => Lvalues v k emptyHe sv v' ∧ r = v'.find k.id)
      fun _ v' => v' = v ∨ ∃ hek, v.find k.id = some ⟨some hek, .placeholder⟩ ∧ v' = v.adopted k hek := by
  have hfresh : (if emptyHe then HeVal.null else .sv sv : HeVal V).isPlaceholder = false := by
    cases emptyHe <;> rfl
  have hval : (if emptyHe then HeVal.null else .sv sv : HeVal V) = .sv sv ∨
      emptyHe = true ∧ (if emptyHe then HeVal.null else .sv sv : HeVal V) = .null := by
    cases emptyHe <;> simp
  simp only [lvalue, wp_bind, wp_get]
  rcases find_cases v k.id with ⟨hek, old, hf, -⟩ | hf
  · rw [hf]
    simp only [wp_bind]
    refine wp_adopt ?_ (Or.inl rfl)
    cases hp : old.isPlaceholder with
    | false =>
      simp only [Bool.false_eq_true, if_false, wp_map, wp_get]
      exact ⟨.ordinary hek old hf hp, trivial⟩
    | true =>
      obtain rfl := isPlaceholder_iff.mp hp
      cases hm : v.placeholders.isSome with
      | false =>
        simp only [if_true, Bool.false_eq_true, if_false, wp_bind, wp_modify, wp_map, wp_get]
        exact ⟨.hidden hek (.sv sv) hf (Or.inl rfl), trivial⟩
      | true =>
        simp only [if_true, wp_bind, wp_throwIf]
        refine ⟨fun _ => Or.inr ⟨hek, rfl, rfl⟩, fun _ => ?_⟩
        have hf' : (v.adopted k hek).find k.id = some ⟨some (v.adoptedHek k hek), .placeholder⟩ := by
          rw [find_adopted hf, if_pos rfl]
        refine wp_mono (store_spec _ k _) ?_ fun _ _ h => Or.inr ⟨hek, rfl, h⟩
        rintro r v' ⟨hstores, rfl⟩
        refine ⟨?_, rfl⟩
        cases hstores with
        | existing hek' old' hf₂ =>
          obtain ⟨rfl, rfl⟩ : v.adoptedHek k hek = hek' ∧ HeVal.placeholder = old' := by
            simpa [hf'] using hf₂
          have heq : (v.adopted k hek).overwritten k (v.adoptedHek k hek) .placeholder
              (if emptyHe then .null else .sv sv) =
              v.overwritten k hek .placeholder (if emptyHe then .null else .sv sv) := by
            unfold overwritten
            rw [adopted_adopted]
          rw [heq]
          exact .hidden hek _ hf hval
        | new hf₂ => simp [hf'] at hf₂
  · rw [hf]
    simp only [wp_bind, wp_throwIf]
    refine ⟨fun _ => Or.inl trivial, fun hro => ⟨fun _ => Or.inl trivial, fun _ => ?_⟩⟩
    have hro : v.readonly = false := by simpa using hro
    cases hm : v.placeholders.isSome with
    | false =>
      refine wp_insert ⟨.new hf hro, ?_⟩ (Or.inl rfl)
      rw [find_inserted hf, if_pos rfl]
    | true =>
      refine wp_mono (store_spec v k _) ?_ fun _ _ h => Or.inl h
      rintro r v' ⟨hstores, rfl⟩
      refine ⟨?_, rfl⟩
      cases hstores with
      | existing hek' old' hf₂ => simp [hf] at hf₂
      | new _ _ => exact .new hf hro

/-- A deletion finds nothing to delete, hides the value, or takes the entry out. -/
inductive Deletes (v : View V) (k : KeyId) (indexed : Bool) : View V → Prop
  | absent (hf : v.lookup k = none) : Deletes v k indexed v
  | hidden (he : HE V) (hf : v.find k = some he) (hord : he.val.isPlaceholder = false)
      (hro : v.readonly = true) : Deletes v k indexed ((v.setVal k .placeholder).addPlaceholders 1)
  | removed (hek : HEK) (val : HeVal V) (hf : v.find k = some ⟨some hek, val⟩)
      (hord : val.isPlaceholder = false) (hro : v.readonly = false) :
      Deletes v k indexed { v.remove k hek indexed with
        hasKFlags := v.hasKFlags && decide (v.keys - 1 ≠ 0) }

theorem Deletes.lookup {k : KeyId} {indexed : Bool} (h : v.Deletes k indexed v') :
    v'.lookup k = none ∧ ∀ k', v.lookup k' = none → v'.lookup k' = none := by
  cases h with
  | absent hf => exact ⟨hf, fun _ h => h⟩
  | hidden he hf =>
    have hfind : ∀ k', ((v.setVal k .placeholder).addPlaceholders 1).find k' =
        if k' = k then (v.find k).map fun he => { he with val := .placeholder } else v.find k' :=
      fun k' => find_setVal k k' .placeholder
    refine ⟨by simp [View.lookup, hfind, hf, Option.filter], fun k' hk' => ?_⟩
    unfold View.lookup at hk' ⊢
    rw [hfind]
    split
    · simp [hf, Option.filter]
    · exact hk'
  | removed hek val hf =>
    have hfind : ∀ k', ({ v.remove k hek indexed with
        hasKFlags := v.hasKFlags && decide (v.keys - 1 ≠ 0) } : View V).find k' =
          if k' = k then none else v.find k' := by
      intro k'
      have := KeyedList.find_erase HE.id (l := v.live) (c := some k) (some k')
      simp only [Option.some.injEq] at this
      exact this
    refine ⟨?_, fun k' hk' => ?_⟩
    · unfold View.lookup
      rw [hfind, if_pos rfl]
      rfl
    · unfold View.lookup at hk' ⊢
      rw [hfind]
      split
      · rfl
      · exact hk'

theorem delete_spec (v : View V) (svReadonly : V → Bool) (discard : Bool) (k : KeyId)
    (indexed : Bool) :
    wp (delete svReadonly discard k indexed) v (fun _ v' => Deletes v k indexed v')
      fun _ v' => v' = v := by
  simp only [delete, wp_bind, wp_get]
  rcases find_cases v k with ⟨hek, old, hf, -⟩ | hf
  · have hf' := hf
    rw [hf]
    cases hp : old.isPlaceholder with
    | true =>
      simp only [hp, if_true, wp_pure]
      exact .absent (by simp [lookup, hf', hp])
    | false =>
      simp only [hp, Bool.false_eq_true, if_false, wp_bind, wp_throwIf, wp_set, wp_pure]
      refine ⟨fun _ => trivial, fun _ => ?_⟩
      cases hro : v.readonly with
      | true => exact .hidden _ hf' hp hro
      | false => exact .removed hek old hf' hp hro
  · have hf' := hf
    rw [hf]
    simp only [wp_bind, wp_throwIf, wp_pure]
    exact ⟨fun _ => trivial, fun _ => .absent (by simp [lookup, hf'])⟩

end View

end XPerl.Hash
