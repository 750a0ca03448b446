import XPerl.Hash.Removal
import XPerl.Hash.Iteration

/-! hv_clear. -/

namespace XPerl.Hash

open XPerl.Framework XPerl.Framework.Exec

variable {V : Type} {cfg : Config} {hv hv' : HV V} {i index : Nat} {k : KeyId} {he : HE V} {hek : HEK}

theorem resetForFree_spec (wf : WF cfg hv) :
    Shows cfg (resetForFree hv) { hv.view.flush with current := none } ∧
      (resetForFree hv).hvEntryFirst = hv.hvEntryFirst ∧ (resetForFree hv).eiter = none := by
  have hrewind : ∀ hv₁ : HV V, WF cfg hv₁ → hv₁.lazydel = false →
      Shows cfg (hv₁.modifyAux fun a => { a with riter := -1, eiter := none, iterActive := false })
        { hv₁.view with current := none } ∧
      (hv₁.modifyAux fun a => { a with
        riter := -1, eiter := none, iterActive := false }).hvEntryFirst = hv₁.hvEntryFirst ∧
      (hv₁.modifyAux fun a => { a with riter := -1, eiter := none, iterActive := false }).eiter =
        none := by
    intro hv₁ wf₁ hl₁
    refine ⟨(rewind_spec _ wf₁ hl₁ (by simp) (by simp)).1, first_withAux hl₁ _, ?_⟩
    unfold HV.eiter HV.modifyAux
    cases hv₁.aux <;> rfl
  unfold resetForFree
  cases he : hv.eiter with
  | none =>
    have hl : hv.lazydel = false := by
      by_contra h
      have hsome := wf.view.pending.trans (eq_true_of_ne_false h)
      obtain ⟨hek, hp⟩ := Option.isSome_iff_exists.mp hsome
      simp [HV.view, HV.pendingHek, HV.current, he] at hp
    have hcur : hv.view.current = none := by simp [HV.view, HV.currentId, HV.current, he]
    refine ⟨⟨wf, ?_⟩, rfl, he⟩
    rw [flush_of_not_lazy hl, ← hcur]
  | some e =>
    cases hl : hv.lazydel with
    | true =>
      have hrel : releaseLazy hv = freeLazy { hv with
          lazydel := false, aux := hv.aux.map fun a => { a with eiter := none } } e := by
        simp only [releaseLazy, he]
      obtain ⟨⟨wf₁, hview₁⟩, -, hfirst₁, -⟩ := releaseLazy_spec wf hl
      obtain ⟨h1, h2, h3⟩ := hrewind _ wf₁ (congrArg View.lazydel hview₁)
      rw [hview₁] at h1
      simp only [if_true, ← hrel]
      exact ⟨h1, h2.trans hfirst₁, h3⟩
    | false =>
      obtain ⟨h1, h2, h3⟩ := hrewind hv wf hl
      rw [← flush_of_not_lazy hl] at h1
      exact ⟨h1, h2, h3⟩

theorem live_head (hlow : ∀ j < i, hv.hvEntryFirst j = none) (hi : hv.hvEntryFirst i = some he) :
    ∃ rest, hv.live = he :: rest := by
  have hlt := lt_of_first hi
  refine ⟨_, SparseList.reduceOption_head (fun j hj => ?_) (slots_of_first hi)⟩
  rw [slots_getElem?, if_pos (by omega), hlow j hj]

variable {v : View V} {rest : List (HE V)}

theorem remove_head (hok : v.Ok) (hl : v.live = he :: rest)
    (hhek : he.hek = some hek) (hcur : v.current = none) (indexed : Bool) :
    v.remove hek.id hek indexed =
      { v with live := rest, keys := rest.length, freed := v.freed ++ he.ref.toList } := by
  have hid : he.id = some hek.id := by simp [HE.id, hhek]
  have hd := hok.distinct
  have hk := hok.keys
  rw [hl] at hd hk
  have herase : KeyedList.erase HE.id v.live (some hek.id) = rest := by
    rw [hl, ← hid]
    exact KeyedList.erase_head hd
  have href : he.ref.toList = [hek.ref] := by simp [HE.ref, hhek]
  have hkeys : v.keys - 1 = rest.length := by simp [hk]
  simp [View.remove, herase, hcur, href, hkeys]

/-- What freeing the first live entry leaves. -/
structure FreedFirst (cfg : Config) (hv : HV V) (he : HE V) (rest : List (HE V)) (hv' : HV V)
    (next : Nat) : Prop where
  shows : Shows cfg hv' { hv.view.flush with
    current := none, live := rest, keys := rest.length
    freed := hv.view.flush.freed ++ he.ref.toList }
  low : ∀ j < next, hv'.hvEntryFirst j = none

theorem foundByKey_eq (wf : WF cfg hv) (i : Nat) :
    foundByKey cfg.build hv i = (hv.hvEntryFirst i).isSome := by
  unfold foundByKey
  cases hf : hv.hvEntryFirst i with
  | none => rfl
  | some he =>
    obtain ⟨hek, hhek⟩ := wf.hek_of_first hf
    obtain ⟨slot, hfind⟩ := oaFind_at wf (⟨hf, by simp [HE.id, hhek]⟩ : At hv i hek.id he)
    simp [hhek, hfind]

theorem hfreeNextEntry_spec (wf : WF cfg hv) (hlow : ∀ j < index, hv.hvEntryFirst j = none) :
    returns (hfreeNextEntry cfg index) hv fun r hv' =>
      (hv.live = [] ∧ r.1 = .null ∧ Shows cfg hv' { hv.view.flush with current := none }) ∨
      ∃ he rest, hv.live = he :: rest ∧ r.1 = he.val ∧ FreedFirst cfg hv he rest hv' r.2 := by
  obtain ⟨⟨wf₁, hview₁⟩, hfirst₁, heit₁⟩ := resetForFree_spec wf
  simp only [hfreeNextEntry, returns, wp_bind, wp_modify, wp_get]
  set hv₁ := resetForFree hv
  have hlive₁ : hv₁.live = hv.live := congrArg View.live hview₁
  have hkeys₁ := wf₁.keys_eq
  rw [← hfirst₁] at hlow
  have hcur₁ : hv₁.view.current = none := by rw [hview₁]
  by_cases h0 : hv₁.keys = 0
  · rw [if_pos h0]
    refine Or.inl ⟨?_, rfl, wf₁, hview₁⟩
    rw [← hlive₁]
    exact List.eq_nil_of_length_eq_zero (by omega)
  · rw [if_neg h0]
    have hdone : ∀ (hv' : HV V) he rest hek indexed next, hv₁.live = he :: rest → he.hek = some hek →
        Removed cfg hv₁ hek.id hek indexed hv' → (∀ j < next, hv'.hvEntryFirst j = none) →
        FreedFirst cfg hv he rest hv' next := by
      intro hv' he rest hek indexed next hl hhek hrem hlow'
      have hshows := hrem.shows
      rw [remove_head wf₁.view hl hhek hcur₁, hview₁] at hshows
      exact ⟨hshows, hlow'⟩
    rw [← hlive₁]
    cases hs : hv₁.storage with
    | unallocated n => exact absurd (keys_unallocated wf₁ hs) h0
    | linear cap es =>
      have hes : hv₁.live = es := by
        rw [HV.live, slots_linear hs]
        simp [List.reduceOption]
      cases es with
      | nil => simp [hkeys₁, hes] at h0
      | cons he rest =>
        obtain rfl : index = 0 := by
          by_contra hpos
          have := hlow 0 (Nat.pos_of_ne_zero hpos)
          simp [hvEntryFirst_linear hs] at this
        have hfirst : hv₁.hvEntryFirst 0 = some he := by rw [hvEntryFirst_linear hs]; rfl
        obtain ⟨hek, hhek⟩ := wf₁.hek_of_first hfirst
        have hat : At hv₁ 0 hek.id he := ⟨hfirst, by simp [HE.id, hhek]⟩
        simp only [List.getElem?_cons_zero, hhek, wp_bind, wp_set, wp_pure]
        refine Or.inr ⟨he, rest, hes, rfl, ?_⟩
        exact hdone _ _ _ _ _ _ hes hhek (linearRemoveAt_spec wf₁ hat hhek hs).1 (by simp)
    | indexed oa =>
      have hused : oa.used = hv₁.hvEntryLimit := by
        rw [HV.hvEntryLimit, entries_indexed hs]
        rfl
      simp only [foundByKey_eq wf₁, hused]
      cases hn : (List.range hv₁.hvEntryLimit).find? fun i =>
          decide (index ≤ i) && (hv₁.hvEntryFirst i).isSome with
      | none =>
        exfalso
        obtain ⟨he, hm⟩ := List.exists_mem_of_length_pos
          (by omega : 0 < hv₁.live.length)
        obtain ⟨i, hi⟩ := mem_live.mp hm
        have hge : index ≤ i := by
          by_contra hlt
          simp [hlow i (by omega)] at hi
        have := List.find?_eq_none.mp hn i (List.mem_range.mpr (lt_of_first hi))
        simp [hge, hi] at this
      | some i =>
        obtain ⟨hp, hmem, hbefore⟩ := List.find?_range_eq_some.mp hn
        obtain ⟨he, hf⟩ := Option.isSome_iff_exists.mp (by simpa using (Bool.and_eq_true_iff.mp hp).2 :
          (hv₁.hvEntryFirst i).isSome = true)
        have hlow' : ∀ j < i, hv₁.hvEntryFirst j = none := by
          intro j hj
          by_cases hlt : j < index
          · exact hlow j hlt
          · have := hbefore j hj
            simpa [show index ≤ j by omega] using this
        obtain ⟨rest, hrest⟩ := live_head hlow' hf
        obtain ⟨hek, hhek⟩ := wf₁.hek_of_first hf
        have hat : At hv₁ i hek.id he := ⟨hf, by simp [HE.id, hhek]⟩
        have hcur : hv₁.isCurrent i = false := by simp [HV.isCurrent, heit₁]
        rcases oaFind_view wf₁ hek.id with ⟨j, _, _, slot, hat', hfind, hslot⟩ | ⟨_, hnone, -⟩
        · obtain rfl := wf₁.unique hf hat'.first (hat.id.trans hat'.id.symm)
          obtain ⟨pos, rfl, hrefers⟩ := hslot oa hs
          have hx := wf₁.indexed hs
          simp only [wp_bind, wp_entryAt hat, hhek, hfind, Option.bind_some, wp_onOA hs, wp_modify,
            wp_pure]
          refine wp_of_returns (oaIndexDelete_spec hx.sized (wf₁.homesIn hs) hx.index hrefers) ?_
          rintro - oa' ⟨hx', hshape, htomb⟩
          obtain ⟨hrem, hfirst'⟩ := vacate_spec wf₁ hat hhek hcur hs hx' hshape htomb
          refine Or.inr ⟨he, rest, hrest, rfl, hdone _ _ _ _ _ _ hrest hhek hrem fun j hj => ?_⟩
          rw [hfirst']
          split
          · rfl
          · exact hlow' j (by omega)
        · rw [hat.find wf₁] at hnone
          simp at hnone

theorem emptied_nil (hok : v.Ok) (hl : v.live = []) :
    ({ v.flush with current := none } : View V) = v.emptied := by
  have hk : v.keys = 0 := by rw [hok.keys, hl]; rfl
  simp [View.flush, View.emptied, hl, hk]

theorem emptied_cons (hl : v.live = he :: rest) :
    ({ v.flush with current := none, live := rest, keys := rest.length
                    freed := v.flush.freed ++ he.ref.toList } : View V).emptied = v.emptied := by
  simp only [View.emptied, View.flush, hl, Option.map_none, Option.toList_none, List.append_nil,
    List.filterMap_cons, List.append_assoc]
  cases he.ref <;> rfl

theorem clearEiter_spec (wf : WF cfg hv) (hl : hv.lazydel = false) :
    Shows cfg (hv.modifyAux fun a => { a with eiter := none }) { hv.view with current := none } := by
  set aux := hv.aux.map fun a => { a with eiter := none } with haux
  have hriter : ({ hv with aux := aux } : HV V).riter = hv.riter := by
    unfold HV.riter
    cases h : hv.aux <;> simp [haux, h]
  have heit : ({ hv with aux := aux } : HV V).eiter = none := by
    unfold HV.eiter
    cases h : hv.aux <;> simp [haux, h]
  have hcid : ({ hv with aux := aux } : HV V).currentId = none := by
    simp [HV.currentId, HV.current, heit]
  have hshows := (withAux_spec wf hl (hriter ▸ wf.cursor.riter) (by simp [heit])
    (by simp [heit])).1
  rwa [hcid] at hshows

/-- Values of a restricted hash that are placeholders already, up to a position. -/
structure HiddenUpTo (cfg : Config) (svReadonly : V → Bool) (hv : HV V) (i : Nat) (hv' : HV V) :
    Prop where
  wf : WF cfg hv'
  view : Relation.ReflTransGen View.Hides hv.view hv'.view
  hidden : ∀ j < i, ∀ he, hv'.hvEntryFirst j = some he → he.val.isPlaceholder = true
  writable : ∀ j < i, ∀ he, hv.hvEntryFirst j = some he → he.val.svReadonly svReadonly = false
  rest : ∀ j ≥ i, hv'.hvEntryFirst j = hv.hvEntryFirst j

theorem clearToPlaceholder_spec {hv₀ : HV V} {svReadonly : V → Bool}
    (h : HiddenUpTo cfg svReadonly hv₀ i hv) :
    wp (clearToPlaceholder svReadonly i) hv (fun _ hv' => HiddenUpTo cfg svReadonly hv₀ (i + 1) hv')
      fun _ hv' => WF cfg hv' ∧ Relation.ReflTransGen View.Hides hv₀.view hv'.view ∧
        ∃ he ∈ hv₀.live, he.val.svReadonly svReadonly = true := by
  have hrest := h.rest i (le_refl i)
  have hnext : ∀ hv' : HV V, WF cfg hv' → Relation.ReflTransGen View.Hides hv₀.view hv'.view →
      (∀ he, hv'.hvEntryFirst i = some he → he.val.isPlaceholder = true) →
      (∀ he, hv₀.hvEntryFirst i = some he → he.val.svReadonly svReadonly = false) →
      (∀ j ≠ i, hv'.hvEntryFirst j = hv.hvEntryFirst j) →
      HiddenUpTo cfg svReadonly hv₀ (i + 1) hv' := by
    intro hv' wf' hview' hi hwi hne
    refine ⟨wf', hview', fun j hj he hf => ?_, fun j hj he hf => ?_, fun j hj => ?_⟩
    · by_cases hji : j = i
      · exact hi he (hji ▸ hf)
      · exact h.hidden j (by omega) he (hne j hji ▸ hf)
    · by_cases hji : j = i
      · exact hwi he (hji ▸ hf)
      · exact h.writable j (by omega) he hf
    · rw [hne j (by omega), h.rest j (by omega)]
  simp only [clearToPlaceholder, wp_bind, wp_get]
  cases hf : hv.hvEntryFirst i with
  | none =>
    rw [hf] at hrest
    exact hnext hv h.wf h.view (by simp [hf]) (by simp [← hrest]) fun _ _ => rfl
  | some he =>
    rw [hf] at hrest
    cases hp : he.val.isPlaceholder with
    | true =>
      have hval := isPlaceholder_iff.mp hp
      simp only [hp, if_true, wp_pure]
      refine hnext hv h.wf h.view (by simp [hf, hp]) ?_ fun _ _ => rfl
      rintro x hx
      obtain rfl : he = x := by simpa [← hrest] using hx
      simp [hval, HeVal.svReadonly, HeVal.toSv]
    | false =>
      obtain ⟨hek, hhek⟩ := h.wf.hek_of_first hf
      have hat : At hv i hek.id he := ⟨hf, by simp [HE.id, hhek]⟩
      simp only [hp, Bool.false_eq_true, if_false, wp_bind, wp_throwIf, wp_modify]
      refine ⟨fun hro => ⟨h.wf, h.view, he, mem_live.mpr ⟨i, hrest.symm⟩, hro⟩, fun hro => ?_⟩
      obtain ⟨⟨wf', hview'⟩, -⟩ := hide_spec h.wf hat
      have hfirst : ∀ j, ((hv.setVal i .placeholder).addPlaceholders 1).hvEntryFirst j =
          if i = j then some { he with val := .placeholder } else hv.hvEntryFirst j :=
        first_modifyEntry (f := fun he => { he with val := .placeholder }) h.wf hat hat.id
      refine hnext _ wf' (h.view.tail ⟨hek.id, he, hat.find h.wf, hp, hview'⟩) ?_ ?_ ?_
      · intro x hx
        rw [hfirst, if_pos rfl] at hx
        obtain rfl := Option.some.inj hx
        rfl
      · intro x hx
        obtain rfl : he = x := by simpa [← hrest] using hx
        simpa using hro
      · intro j hj
        rw [hfirst, if_neg (Ne.symm hj)]

variable [DecidableEq V]

theorem hvFreeEntries_spec {n fuel : Nat} (wf : WF cfg hv) (hn : hv.live.length = n)
    (hfuel : n + 2 ≤ fuel) (hlow : ∀ j < index, hv.hvEntryFirst j = none) :
    returns (hvFreeEntries cfg fuel index) hv fun _ hv' => Shows cfg hv' hv.view.emptied := by
  induction n generalizing fuel index hv with
  | zero =>
    obtain ⟨fuel, rfl⟩ : ∃ m, fuel = m + 1 := ⟨fuel - 1, by omega⟩
    have hl := List.eq_nil_of_length_eq_zero hn
    simp only [hvFreeEntries, returns, wp_bind]
    refine wp_of_returns (hfreeNextEntry_spec wf hlow) ?_
    rintro ⟨val, next⟩ hv' (⟨-, hval, hshows⟩ | ⟨he, rest, hcons, -⟩)
    · have hk : hv'.keys = 0 := by
        have : hv'.keys = hv.keys := congrArg View.keys hshows.2
        rw [this, wf.keys_eq, hl]
        rfl
      rw [emptied_nil wf.view hl] at hshows
      obtain rfl : val = .null := hval
      simp only [wp_get, hk, ne_eq, not_true_eq_false, or_self, if_false, wp_pure]
      exact hshows
    · simp [hl] at hcons
  | succ n ih =>
    obtain ⟨fuel, rfl⟩ : ∃ m, fuel = m + 1 := ⟨fuel - 1, by omega⟩
    simp only [hvFreeEntries, returns, wp_bind]
    refine wp_of_returns (hfreeNextEntry_spec wf hlow) ?_
    rintro ⟨val, next⟩ hv' (⟨hnil, -⟩ | ⟨he, rest, hcons, -, hfreed⟩)
    · simp [hnil] at hn
    · have hview := hfreed.shows.2
      have hempty : hv'.view.emptied = hv.view.emptied := by
        rw [hview]
        exact emptied_cons hcons
      have hlen : hv'.live.length = n := by
        have hl : hv'.live = rest := congrArg View.live hview
        rw [hl]
        simpa [hcons] using hn
      simp only [wp_get, wp_ite, wp_pure]
      rw [← hempty]
      refine ⟨fun _ => ih hfreed.shows.1 hlen (by omega) hfreed.low, fun hstop => ?_⟩
      have hk : hv'.keys = 0 := by
        by_contra h
        exact hstop (Or.inr h)
      have wf' := hfreed.shows.1
      have hl : hv'.view.live = [] := List.eq_nil_of_length_eq_zero (wf'.keys_eq.symm.trans hk)
      have hlz : hv'.lazydel = false := congrArg View.lazydel hview
      have hcur : hv'.view.current = none := by rw [hview]
      rw [← emptied_nil wf'.view hl, flush_of_not_lazy hlz, ← hcur]
      exact ⟨wf', rfl⟩

theorem hvClear_spec (wf : WF cfg hv) (svReadonly : V → Bool) :
    wp (hvClear cfg svReadonly) hv
      (fun _ hv' => (¬(hv.readonly = true ∧ hv.keys ≠ 0) → Shows cfg hv' hv.view.cleared) ∧
        (hv.readonly = true ∧ hv.keys ≠ 0 →
          (∀ he ∈ hv.live, he.val.svReadonly svReadonly = false) ∧
          (hv.lazydel = false → ∃ v, Relation.ReflTransGen View.Hides hv.view v ∧
            (∀ he ∈ v.live, he.val.isPlaceholder = true) ∧ Shows cfg hv' { v with current := none })))
      fun _ hv' => hv.readonly = true ∧ hv.keys ≠ 0 ∧ WF cfg hv' ∧
        Relation.ReflTransGen View.Hides hv.view hv'.view ∧
        ∃ he ∈ hv.live, he.val.svReadonly svReadonly = true := by
  simp only [hvClear, wp_bind, wp_get, wp_ite, wp_modify]
  refine ⟨fun hro => ?_, fun hro => ?_⟩
  · have hstart : HiddenUpTo cfg svReadonly hv 0 hv :=
      ⟨wf, .refl, by simp, by simp, fun _ _ => rfl⟩
    refine wp_mono (wp_forM_range (HiddenUpTo cfg svReadonly hv) hstart fun i _ hv₁ h =>
      clearToPlaceholder_spec h) ?_ fun _ _ h => ⟨hro.1, hro.2, h⟩
    rintro - hv₁ h
    refine ⟨fun hn => absurd hro hn, fun _ => ⟨fun he hm => ?_, fun hl => ?_⟩⟩
    · obtain ⟨i, hi⟩ := mem_live.mp hm
      exact h.writable i (lt_of_first hi) he hi
    · refine ⟨hv₁.view, h.view, fun he hm => ?_, clearEiter_spec h.wf ?_⟩
      · obtain ⟨i, hi⟩ := mem_live.mp hm
        by_cases hlt : i < hv.hvEntryLimit
        · exact h.hidden i hlt he hi
        · rw [h.rest i (by omega)] at hi
          exact absurd (lt_of_first hi) hlt
      · exact (congrArg View.lazydel (View.hides_frame h.view)).trans hl
  · refine wp_of_returns (hvFreeEntries_spec wf rfl (by rw [wf.keys_eq]) (by simp)) ?_
    rintro - hv₁ ⟨wf₁, hview₁⟩
    refine ⟨fun _ => ?_, fun h => absurd h hro⟩
    rw [hvPlaceholdersSet_zero]
    obtain ⟨wf₂, hview₂⟩ := setCounts_spec wf₁ (hv₁.placeholders.map fun _ => 0) false
    have hshows := clearEiter_spec wf₂ (congrArg View.lazydel hview₁)
    rw [hview₂, hview₁] at hshows
    refine ⟨hshows.1, hshows.2.trans ?_⟩
    rw [show hv₁.placeholders = hv.placeholders from congrArg View.placeholders hview₁]
    rfl

end XPerl.Hash
