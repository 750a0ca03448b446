import XPerl.Framework.Exec
import XPerl.Hash.Access
import XPerl.Hash.Effects
import XPerl.Hash.Update

/-! Taking an entry out of its storage; deletion, clearing and the sweep of the placeholders. -/

namespace XPerl.Hash

open XPerl.Framework XPerl.Framework.Exec KeyedList

variable {V : Type} {cfg : Config} {hv hv' : HV V} {i : Nat} {k : KeyId} {he : HE V} {hek : HEK}

theorem set_none_slots (wf : WF cfg hv) (hat : At hv i k he) :
    hv.slots.set i none = hv.slots.map (Option.filter fun x => decide (x.id ≠ some k)) :=
  SparseList.set_none_eq_filter (p := fun x : HE V => decide (x.id ≠ some k))
    (slots_of_first hat.first) (by simp [hat.id]) (fun j x hj hx => decide_eq_true fun hid => hj
      (wf.unique hat.first (first_of_slots hx) (hat.id.trans hid.symm)).symm)

theorem slots_vacated (wf : WF cfg hv) (hat : At hv i k he)
    (hlim : hv'.hvEntryLimit = hv.hvEntryLimit)
    (hfirst : ∀ j, hv'.hvEntryFirst j = if j = i then none else hv.hvEntryFirst j) :
    hv'.slots = hv.slots.map (Option.filter fun x => decide (x.id ≠ some k)) := by
  rw [← set_none_slots wf hat]
  apply List.ext_getElem?
  intro j
  have := lt_of_first hat.first
  rw [slots_getElem?, hlim, hfirst, List.getElem?_set, slots_getElem?, slots_length]
  by_cases hj : i = j
  · subst hj
    simp [this]
  · simp [hj, Ne.symm hj]

theorem live_vacated (h : hv'.slots = hv.slots.map (Option.filter fun x => decide (x.id ≠ some k))) :
    hv'.live = erase HE.id hv.live (some k) := by
  rw [HV.live, h, SparseList.reduceOption_filter]
  rfl

theorem unvisited_vacated (hr : hv'.riter = hv.riter)
    (h : hv'.slots = hv.slots.map (Option.filter fun x => decide (x.id ≠ some k))) :
    hv'.unvisited = erase HE.id hv.unvisited (some k) := by
  rw [HV.unvisited, h, hr, ← List.map_drop, SparseList.reduceOption_filter]
  rfl

/-- Outcome of a removal. -/
structure Removed (cfg : Config) (hv : HV V) (k : KeyId) (hek : HEK) (indexed : Bool) (hv' : HV V) :
    Prop where
  shows : Shows cfg hv' (hv.view.remove k hek indexed)
  unvisited : hv'.unvisited = KeyedList.erase HE.id hv.unvisited (some k)
  inserted : hv'.cursor.inserted = hv.cursor.inserted

variable {oa oa' : OA V}

theorem indexed_without (wf : WF cfg hv) (hat : At hv i k he)
    (hs : hv.storage = .indexed oa)
    (hx : IndexOk cfg.build oa' (Function.update (hv.homeOf oa) i none)) (hshape : SameShape oa oa')
    (htomb : cfg.build = .oa → oa'.tombstones ≤ oa.tombstones + 1) {es : List (HE V)}
    (hlen : es.length = oa.entries.length)
    (hs' : hv'.storage = .indexed { oa' with entries := es }) (hk : hv'.keys = hv.keys - 1)
    (hfirst : ∀ j, hv'.hvEntryFirst j = if j = i then none else hv.hvEntryFirst j) :
    StorageOk cfg hv' := by
  have hix := wf.indexed hs
  have hpos : 0 < hv.keys := by
    have hkl := wf.keys_eq
    rw [hkl]
    exact List.length_pos_of_mem hat.mem
  have hused : ({ oa' with entries := es } : OA V).used = oa.used := hlen
  simp only [StorageOk, hs']
  refine ⟨?_, ?_, ?_⟩
  · obtain ⟨h1, h2, h3, h4, h5⟩ := hix.sized.of_shape hshape
    have hused' : oa'.used = oa.used := by rw [OA.used, hshape.entries]; rfl
    exact ⟨h1, h2, h3, by rw [hused, ← hused']; exact h4, fun hb => by
      rw [hused, ← hused']
      exact h5 hb⟩
  · convert hx.withEntries es using 1
    funext j
    by_cases hj : j = i
    · subst hj
      simp [HV.homeOf, hfirst]
    · simp only [HV.homeOf, hfirst, if_neg hj, hshape.buckets, Function.update_of_ne hj]
  · have hload := hix.load
    have hbk : oa'.buckets = oa.buckets := hshape.buckets
    unfold indexLoad at hload ⊢
    show _ ≤ oaEntryCapacity oa'.buckets
    rw [hbk, hk]
    cases hb : cfg.build with
    | chains =>
      simp only [hb] at hload ⊢
      omega
    | oa =>
      have := htomb hb
      simp only [hb] at hload ⊢
      omega

theorem retire_spec (wf : WF cfg hv) (hat : At hv i k he) (hhek : he.hek = some hek)
    (hcur : hv.isCurrent i = true) (hs : hv.storage = .indexed oa)
    (hx : IndexOk cfg.build oa' (Function.update (hv.homeOf oa) i none)) (hshape : SameShape oa oa')
    (htomb : cfg.build = .oa → oa'.tombstones ≤ oa.tombstones + 1) :
    Removed cfg hv k hek true
      { hv with storage := .indexed oa', keys := hv.keys - 1, lazydel := true } ∧
    ∀ j, ({ hv with storage := .indexed oa', keys := hv.keys - 1, lazydel := true } :
      HV V).hvEntryFirst j = if j = i then none else hv.hvEntryFirst j := by
  set hv' : HV V := { hv with storage := .indexed oa', keys := hv.keys - 1, lazydel := true }
  have hlz : hv.lazydel = false := by
    have := hat.not_retired wf
    simpa [hcur] using this
  have hes : oa'.entries = oa.entries := hshape.entries
  have hst' : hv'.storage = .indexed oa' := rfl
  have heit := isCurrent_iff.mp hcur
  have hiff : ∀ j, hv.isCurrent j = true ↔ j = i := by
    intro j
    rw [isCurrent_iff, heit]
    simp [eq_comm]
  have hfirst : ∀ j, hv'.hvEntryFirst j = if j = i then none else hv.hvEntryFirst j := by
    intro j
    rw [hvEntryFirst_indexed hst', hvEntryFirst_indexed hs, hes]
    show Option.filter (fun he : HE V => he.hek.isSome && !(true && hv.isCurrent j)) _ = _
    by_cases hj : j = i
    · subst hj
      simp [hcur]
    · have hnc : hv.isCurrent j = false := by
        by_contra h
        exact hj ((hiff j).mp (by simpa using h))
      simp [hj, hnc]
  have hlim : hv'.hvEntryLimit = hv.hvEntryLimit := by
    rw [HV.hvEntryLimit, HV.hvEntryLimit, entries_indexed hst', entries_indexed hs, hes]
  have hslots := slots_vacated wf hat hlim hfirst
  have hcurrent : hv'.current = hv.current :=
    current_eq_of rfl fun j _ => by rw [entries_indexed hst', entries_indexed hs, hes]
  have hhe : hv.current = some he := by
    simp [HV.current, heit, entry_of_first hat.first]
  have hvcur : hv.view.current = some k := (hat.current wf).mp hcur
  have hid : hek.id = k := by simpa [HE.id, hhek] using hat.id
  have hview : hv'.view = hv.view.remove k hek true := by
    have hpend : hv'.pendingHek = some hek := by
      show (if true then hv'.current.bind HE.hek else none) = _
      rw [hcurrent, hhe]
      exact hhek
    have hcid : hv'.currentId = none := rfl
    simp only [HV.view, live_vacated hslots, hpend, hcid]
    have hvcur' : hv.currentId = some k := hvcur
    simp only [View.remove, hvcur', decide_true, Bool.and_self, if_true]
    rfl
  refine ⟨⟨⟨⟨?_, ?_, ?_⟩, hview⟩, unvisited_vacated rfl hslots, rfl⟩, hfirst⟩
  · exact indexed_without wf hat hs hx hshape htomb (by rw [hes]) rfl rfl hfirst
  · exact ⟨wf.cursor.riter, fun _ _ h => by simp [hv'] at h, fun _ _ => rfl⟩
  · rw [hview, ← hid]
    refine wf.view.remove hat.mem hhek true fun _ => ?_
    show hv.pendingHek = none
    simp [HV.pendingHek, hlz]

theorem vacate_spec (wf : WF cfg hv) (hat : At hv i k he) (hhek : he.hek = some hek)
    (hcur : hv.isCurrent i = false) (hs : hv.storage = .indexed oa)
    (hx : IndexOk cfg.build oa' (Function.update (hv.homeOf oa) i none)) (hshape : SameShape oa oa')
    (htomb : cfg.build = .oa → oa'.tombstones ≤ oa.tombstones + 1) :
    Removed cfg hv k hek true
      (oaFreeDeleted { hv with storage := .indexed oa', keys := hv.keys - 1 } i) ∧
    ∀ j, (oaFreeDeleted { hv with storage := .indexed oa', keys := hv.keys - 1 } i).hvEntryFirst j =
      if j = i then none else hv.hvEntryFirst j := by
  have hes : oa'.entries = oa.entries := hshape.entries
  have hentry := entry_of_first hat.first
  rw [entries_indexed hs] at hentry
  have hfree : oaFreeDeleted { hv with storage := .indexed oa', keys := hv.keys - 1 } i =
      { hv with
        storage := .indexed { oa' with entries := oa.entries.modify i fun _ => HE.vacant }
        keys := hv.keys - 1, freed := hv.freed ++ [hek.ref] } := by
    simp [oaFreeDeleted, HV.entries, hes, hentry, hhek, HV.modifyEntry, HV.withEntries,
      Storage.withEntries, HV.freeKey]
  rw [hfree]
  set hv' : HV V := { hv with
    storage := .indexed { oa' with entries := oa.entries.modify i fun _ => HE.vacant }
    keys := hv.keys - 1, freed := hv.freed ++ [hek.ref] } with hhv'
  have hst' : hv'.storage =
    .indexed { oa' with entries := oa.entries.modify i fun _ => HE.vacant } := rfl
  have hfirst : ∀ j, hv'.hvEntryFirst j = if j = i then none else hv.hvEntryFirst j := by
    intro j
    rw [hvEntryFirst_indexed hst', hvEntryFirst_indexed hs, List.getElem?_modify]
    show Option.filter (fun he : HE V => he.hek.isSome && !(hv.lazydel && hv.isCurrent j)) _ = _
    by_cases hj : i = j
    · subst hj
      simp [hentry, HE.vacant, Option.filter]
    · simp [hj, Ne.symm hj]
  have hent' : hv'.entries = oa.entries.modify i fun _ => HE.vacant := entries_indexed hst'
  have hlim : hv'.hvEntryLimit = hv.hvEntryLimit := by
    rw [HV.hvEntryLimit, HV.hvEntryLimit, hent', entries_indexed hs, List.length_modify]
  have hslots := slots_vacated wf hat hlim hfirst
  have hne : ∀ j, hv.eiter = some (.slot j) → i ≠ j := by
    rintro j hj rfl
    simp [isCurrent_iff.mpr hj] at hcur
  have hcurrent : hv'.current = hv.current := by
    refine current_eq_of rfl fun j hj => ?_
    rw [hent', entries_indexed hs, List.getElem?_modify]
    simp [hne j hj]
  have hvcur : hv.view.current ≠ some k := fun h => by
    simp [(hat.current wf).mpr h] at hcur
  have hid : hek.id = k := by simpa [HE.id, hhek] using hat.id
  have hview : hv'.view = hv.view.remove k hek true := by
    have hpend : hv'.pendingHek = hv.pendingHek := by
      show (if hv.lazydel then hv'.current.bind HE.hek else none) = _
      rw [hcurrent]
      rfl
    have hcid : hv'.currentId = hv.currentId := by
      show (if hv.lazydel then none else hv'.current.bind HE.id) = _
      rw [hcurrent]
      rfl
    simp only [HV.view, live_vacated hslots, hpend, hcid]
    have hvcur' : ¬hv.currentId = some k := hvcur
    simp only [View.remove, hvcur', decide_false, Bool.and_false, Bool.false_eq_true, if_false]
    rfl
  refine ⟨⟨⟨⟨?_, ⟨wf.cursor.riter, fun j hj hl => ?_, wf.cursor.retired⟩, ?_⟩, hview⟩,
    unvisited_vacated rfl hslots, rfl⟩, hfirst⟩
  · exact indexed_without wf hat hs hx hshape htomb (by simp) hst' rfl hfirst
  · rw [hfirst, if_neg (Ne.symm (hne j hj))]
    exact wf.cursor.slot j hj hl
  · rw [hview, ← hid]
    exact wf.view.remove hat.mem hhek true fun h => absurd (hid ▸ h) hvcur

theorem oaDetach_spec (wf : WF cfg hv) (hat : At hv i k he) (hhek : he.hek = some hek)
    (hs : hv.storage = .indexed oa)
    (hx : IndexOk cfg.build oa' (Function.update (hv.homeOf oa) i none)) (hshape : SameShape oa oa')
    (htomb : cfg.build = .oa → oa'.tombstones ≤ oa.tombstones + 1) :
    Removed cfg hv k hek true (oaDetach { hv with storage := .indexed oa', keys := hv.keys - 1 } i) ∧
    ∀ j, (oaDetach { hv with storage := .indexed oa', keys := hv.keys - 1 } i).hvEntryFirst j =
      if j = i then none else hv.hvEntryFirst j := by
  have hcur : ({ hv with storage := .indexed oa', keys := hv.keys - 1 } : HV V).isCurrent i =
    hv.isCurrent i := rfl
  rw [oaDetach, hcur]
  cases hc : hv.isCurrent i with
  | true =>
    rw [if_pos rfl]
    exact retire_spec wf hat hhek hc hs hx hshape htomb
  | false =>
    rw [if_neg (by simp)]
    exact vacate_spec wf hat hhek hc hs hx hshape htomb

theorem linearRemoveAt_spec (wf : WF cfg hv) (hat : At hv i k he) (hhek : he.hek = some hek)
    {cap : Nat} {es : List (HE V)} (hs : hv.storage = .linear cap es) :
    Removed cfg hv k hek false ((linearRemoveAt hv i).freeKey hek) ∧
      ∃ cap', ((linearRemoveAt hv i).freeKey hek).storage = .linear cap' (es.eraseIdx i) := by
  have hst := wf.storage
  simp only [StorageOk, hs] at hst
  obtain ⟨hmax, hlen, hcap, hheks, hlz⟩ := hst
  have hilt := lt_of_first hat.first
  rw [HV.hvEntryLimit, entries_linear hs] at hilt
  set cap' := if es.length = 1 then 0 else if es.length = 2 then 1 else cap with hcap'
  set hv' : HV V := (linearRemoveAt hv i).freeKey hek with hhv'
  have hdef : hv' = { hv with
      storage := .linear cap' (es.eraseIdx i), keys := hv.keys - 1, freed := hv.freed ++ [hek.ref],
      aux := hv.aux.map (Aux.removedAt i) } := by
    simp only [hhv', linearRemoveAt, hs, HV.freeKey, HV.modifyAux, hcap']
  have hst' : hv'.storage = .linear cap' (es.eraseIdx i) := by rw [hdef]
  have hlz' : hv'.lazydel = false := by rw [hdef]; exact hlz
  have hrit : hv'.riter =
      if 0 ≤ hv.riter ∧ (i : Int) ≤ hv.riter then hv.riter - 1 else hv.riter := by
    cases ha : hv.aux with
    | none =>
      have h1 : hv.riter = -1 := by simp [HV.riter, ha]
      have h2 : hv'.riter = -1 := by rw [hdef]; simp [HV.riter, ha]
      rw [h1, h2]
      rfl
    | some a =>
      have h1 : hv.riter = a.riter := by simp [HV.riter, ha]
      have h2 : hv'.riter = (a.removedAt i).riter := by rw [hdef]; simp [HV.riter, ha]
      rw [h1, h2]
      rfl
  have hriter : (hv'.riter + 1).toNat =
      if i < (hv.riter + 1).toNat then (hv.riter + 1).toNat - 1 else (hv.riter + 1).toNat := by
    rw [hrit]
    split_ifs <;> omega
  have hrge : -1 ≤ hv'.riter := by
    have := wf.cursor.riter
    rw [hrit]
    split <;> omega
  have heiter : ∀ j, hv.eiter = some (.slot j) → hv'.eiter =
      if j = i then none else if i < j then some (.slot (j - 1)) else some (.slot j) := by
    intro j hj
    rw [hdef]
    cases ha : hv.aux with
    | none => simp [HV.eiter, ha] at hj
    | some a =>
      have hja : a.eiter = some (.slot j) := by simpa [HV.eiter, ha] using hj
      simp [HV.eiter, Aux.removedAt, hja]
  have hnone : hv.eiter = none → hv'.eiter = none := by
    intro h
    rw [hdef]
    cases ha : hv.aux with
    | none => simp [HV.eiter]
    | some a =>
      have hja : a.eiter = none := by simpa [HV.eiter, ha] using h
      simp [HV.eiter, Aux.removedAt, hja]
  have hslots : hv'.slots = hv.slots.eraseIdx i := by
    rw [slots_linear hst', slots_linear hs, List.eraseIdx_map]
  have hvac : ∀ k₀, ((hv.slots.eraseIdx i).drop (if i < k₀ then k₀ - 1 else k₀)).reduceOption =
      erase HE.id (hv.slots.drop k₀).reduceOption (some k) := by
    intro k₀
    rw [SparseList.eraseIdx_drop, set_none_slots wf hat, ← List.map_drop,
      SparseList.reduceOption_filter]
    rfl
  have hlive : hv'.live = erase HE.id hv.live (some k) := by
    have := hvac 0
    rw [HV.live, HV.live, hslots]
    simpa using this
  have hunv : hv'.unvisited = erase HE.id hv.unvisited (some k) := by
    rw [HV.unvisited, hslots, hriter]
    exact hvac _
  have hcid : hv'.currentId = if hv.currentId = some k then none else hv.currentId := by
    have hid : hv.currentId = hv.current.bind HE.id := by simp [HV.currentId, hlz]
    have hid' : hv'.currentId = hv'.current.bind HE.id := by simp [HV.currentId, hlz']
    by_cases hc : hv.isCurrent i = true
    · have heit := isCurrent_iff.mp hc
      have heq : hv.currentId = some k := (hat.current wf).mp hc
      rw [if_pos heq, hid', HV.current, heiter i heit]
      simp
    · have hne : ¬hv.currentId = some k := fun h => hc ((hat.current wf).mpr h)
      rw [if_neg hne, hid, hid', HV.current, HV.current]
      cases he' : hv.eiter with
      | none => rw [hnone he']
      | some e =>
        cases e with
        | retired r => simp [wf.cursor.retired r he'] at hlz
        | slot j =>
          have h1 : j ≠ i := by
            rintro rfl
            exact hc (isCurrent_iff.mpr he')
          rw [heiter j he']
          by_cases h2 : i < j
          · simp only [h1, h2, if_true, if_false, entries_linear hst', entries_linear hs]
            rw [List.getElem?_eraseIdx_of_ge (by omega), show j - 1 + 1 = j by omega]
          · simp only [h1, h2, if_false, entries_linear hst', entries_linear hs]
            rw [List.getElem?_eraseIdx_of_lt (by omega)]
  have hid : hek.id = k := by simpa [HE.id, hhek] using hat.id
  have hview : hv'.view = hv.view.remove k hek false := by
    have hpend : hv'.pendingHek = none := by simp [HV.pendingHek, hlz']
    have hpend' : hv.pendingHek = none := by simp [HV.pendingHek, hlz]
    simp only [HV.view, hlive, hpend, hcid]
    simp only [View.remove, Bool.false_and, Bool.false_eq_true, if_false, hpend']
    rw [hdef]
  have hins : hv'.cursor.inserted = hv.cursor.inserted := by
    show hv'.aux.any Aux.iterInserted = _
    rw [hdef]
    cases h : hv.aux <;> simp [HV.cursor, h, Aux.removedAt]
  refine ⟨⟨⟨⟨?_, ⟨hrge, fun j hj _ => ?_, fun r hr => ?_⟩, ?_⟩, hview⟩, hunv, hins⟩, cap', hst'⟩
  · simp only [StorageOk, hst']
    refine ⟨hmax, ?_, ?_, fun x hx => hheks x (List.mem_of_mem_eraseIdx hx), hlz'⟩
    · rw [List.length_eraseIdx_of_lt hilt, hcap']
      split_ifs <;> omega
    · rw [hcap']
      split_ifs <;> omega
  · have hlen' : (es.eraseIdx i).length = es.length - 1 := List.length_eraseIdx_of_lt hilt
    rw [hvEntryFirst_linear hst', isSome_getElem?]
    cases he' : hv.eiter with
    | none => simp [hnone he'] at hj
    | some e =>
      cases e with
      | retired r => simp [wf.cursor.retired r he'] at hlz
      | slot m =>
        have hm := eiter_lt wf he'
        rw [entries_linear hs] at hm
        rw [heiter m he'] at hj
        split_ifs at hj <;> simp at hj <;> omega
  · cases he' : hv.eiter with
    | none => simp [hnone he'] at hr
    | some e =>
      cases e with
      | retired r => simp [wf.cursor.retired r he'] at hlz
      | slot m =>
        rw [heiter m he'] at hr
        split_ifs at hr <;> simp at hr
  · rw [hview, ← hid]
    refine wf.view.remove hat.mem hhek false fun _ => ?_
    show hv.pendingHek = none
    simp [HV.pendingHek, hlz]

theorem remove_setVal (v : View V) (k : KeyId) (hek : HEK) (val : HeVal V) (indexed : Bool) :
    (v.setVal k val).remove k hek indexed = v.remove k hek indexed := by
  have herase : erase HE.id (v.setVal k val).live (some k) =
      erase HE.id v.live (some k) := erase_update fun _ _ h => h
  simp only [View.remove, herase]
  rfl

theorem unlinkEntry_spec (wf : WF cfg hv) (hat : At hv i k he) (hhek : he.hek = some hek)
    {slot : Option Nat} (hslot : ∀ oa, hv.storage = .indexed oa →
      ∃ pos, slot = some pos ∧ Refers cfg.build oa (hv.homeOf oa) pos i) :
    returns (unlinkEntry cfg.build i hek slot) hv fun _ hv' =>
      Shows cfg hv' { hv.view.remove k hek (!hv.isLinear) with
          hasKFlags := hv.hasKFlags && decide (hv.keys - 1 ≠ 0) } ∧
        hv'.unvisited = erase HE.id hv.unvisited (some k) ∧
        hv'.cursor.inserted = hv.cursor.inserted := by
  have hnull : ({ he with val := .null } : HE V).id = some k := hat.id
  obtain ⟨⟨wf₁, hview₁⟩, hat₁⟩ := setVal_spec wf hat .null
  have hunv₁ : (hv.setVal i .null).unvisited = _ :=
    unvisited_modifyEntry (f := fun he => { he with val := .null }) wf hat hnull
  have hdone : ∀ (hv' : HV V) (indexed : Bool),
      Removed cfg (hv.setVal i .null) k hek indexed hv' →
      Shows cfg ({ hv' with hasKFlags := hv'.hasKFlags && decide (hv'.keys ≠ 0) } : HV V)
          { hv.view.remove k hek indexed with
            hasKFlags := hv.hasKFlags && decide (hv.keys - 1 ≠ 0) } ∧
        hv'.unvisited = erase HE.id hv.unvisited (some k) ∧
        hv'.cursor.inserted = hv.cursor.inserted := by
    rintro hv' indexed ⟨⟨wf', hview'⟩, hunv', hins'⟩
    rw [hview₁, remove_setVal] at hview'
    have hkeys : hv'.keys = hv.keys - 1 := congrArg View.keys hview'
    have hflags : hv'.hasKFlags = hv.hasKFlags := congrArg View.hasKFlags hview'
    have hsame : SameStore hv'
        { hv' with hasKFlags := hv'.hasKFlags && decide (hv'.keys ≠ 0) } := ⟨rfl, rfl, rfl, rfl, rfl⟩
    have hok := wf'.view
    refine ⟨⟨hsame.wf wf' ⟨hok.heks, hok.keys, hok.distinct, hok.pending, hok.refs⟩, ?_⟩,
      ?_, hins'⟩
    · show ({ hv'.view with hasKFlags := hv'.hasKFlags && decide (hv'.keys ≠ 0) } : View V) = _
      rw [hview', hkeys, hflags]
    · rw [hunv', hunv₁]
      exact erase_update fun _ _ h => h
  simp only [unlinkEntry, returns, wp_bind, wp_modify, wp_get]
  cases hs : hv.storage with
  | unallocated n =>
    have := hat.first
    rw [hvEntryFirst_unallocated hs] at this
    simp at this
  | linear cap es =>
    have hst₁ : (hv.setVal i .null).storage =
        .linear cap (es.modify i fun he => { he with val := .null }) := by
      simp only [HV.setVal, HV.modifyEntry, HV.withEntries, entries_linear hs, hs,
        Storage.withEntries]
    simp only [hst₁]
    rw [show hv.isLinear = true by simp [HV.isLinear, hs]]
    exact hdone _ _ (linearRemoveAt_spec wf₁ hat₁ hhek hst₁).1
  | indexed oa =>
    have hst₁ : (hv.setVal i .null).storage =
        .indexed { oa with entries := oa.entries.modify i fun he => { he with val := .null } } := by
      simp only [HV.setVal, HV.modifyEntry, HV.withEntries, entries_indexed hs, hs,
        Storage.withEntries]
    obtain ⟨pos, rfl, hrefers⟩ := hslot oa hs
    have hx := wf₁.indexed hst₁
    have hhome : (hv.setVal i .null).homeOf
        { oa with entries := oa.entries.modify i fun he => { he with val := .null } } =
        hv.homeOf oa := homeOf_modifyEntry wf hat hnull oa
    simp only [hst₁, wp_bind, wp_onOA hst₁, wp_modify]
    have hrefers₁ : Refers cfg.build
        { oa with entries := oa.entries.modify i fun he => { he with val := .null } }
        ((hv.setVal i .null).homeOf
          { oa with entries := oa.entries.modify i fun he => { he with val := .null } }) pos i := by
      rw [hhome]
      revert hrefers
      unfold Refers
      cases cfg.build <;> exact id
    refine wp_of_returns (oaIndexDelete_spec hx.sized (wf₁.homesIn hst₁) hx.index hrefers₁) ?_
    rintro - oa' ⟨hx', hshape, htomb⟩
    rw [show hv.isLinear = false by simp [HV.isLinear, hs]]
    exact hdone _ _ (oaDetach_spec wf₁ hat₁ hhek hst₁ hx' hshape htomb).1

/-- Ordinary entries that are still there have not moved past the cursor or back. -/
structure CursorKept (hv hv' : HV V) : Prop where
  inserted : hv'.cursor.inserted = hv.cursor.inserted
  live : ∀ he ∈ hv'.live, he.val.isPlaceholder = false →
    he ∈ hv.live ∧ (he ∈ hv'.unvisited ↔ he ∈ hv.unvisited)

theorem CursorKept.refl (hv : HV V) : CursorKept hv hv := ⟨rfl, fun _ h _ => ⟨h, Iff.rfl⟩⟩

theorem hide_spec (wf : WF cfg hv) (hat : At hv i k he) :
    Shows cfg ((hv.setVal i .placeholder).addPlaceholders 1)
      ((hv.view.setVal k .placeholder).addPlaceholders 1) ∧
    CursorKept hv ((hv.setVal i .placeholder).addPlaceholders 1) := by
  obtain ⟨⟨wf₁, hview₁⟩, -⟩ := setVal_spec wf hat .placeholder
  have hshows := addPlaceholders_spec wf₁ 1
  rw [hview₁] at hshows
  have hunv : (hv.setVal i .placeholder).unvisited = _ :=
    unvisited_modifyEntry (f := fun he => { he with val := .placeholder }) wf hat hat.id
  have hlive : (hv.setVal i .placeholder).live = _ :=
    live_modifyEntry (f := fun he => { he with val := .placeholder }) wf hat hat.id
  have hmem : ∀ l : List (HE V), ∀ x, x.val.isPlaceholder = false →
      (x ∈ update HE.id l (some k) (fun he => { he with val := .placeholder }) ↔
        x ∈ l ∧ x.id ≠ some k) := by
    intro l x hx
    unfold update
    rw [List.mem_map]
    constructor
    · rintro ⟨y, hy, rfl⟩
      by_cases hid : y.id = some k
      · simp [hid, HeVal.isPlaceholder] at hx
      · simp [hid, hy]
    · rintro ⟨hm, hid⟩
      exact ⟨x, hm, by simp [hid]⟩
  refine ⟨hshows, rfl, fun x hx hord => ?_⟩
  have hx' : x ∈ (hv.setVal i .placeholder).live := hx
  rw [hlive, hmem _ _ hord] at hx'
  refine ⟨hx'.1, ?_⟩
  show x ∈ (hv.setVal i .placeholder).unvisited ↔ _
  rw [hunv, hmem _ _ hord]
  exact and_iff_left hx'.2

theorem cursorKept_of_erase (hlive : hv'.live = erase HE.id hv.live (some k))
    (hunv : hv'.unvisited = erase HE.id hv.unvisited (some k))
    (hins : hv'.cursor.inserted = hv.cursor.inserted) : CursorKept hv hv' := by
  refine ⟨hins, fun x hx _ => ?_⟩
  rw [hlive] at hx
  rw [hunv]
  have hid : ¬x.id = some k := by simpa using (List.mem_filter.mp hx).2
  exact ⟨(List.mem_filter.mp hx).1, by simp [erase, hid]⟩

theorem deleteAt_spec (wf : WF cfg hv) (hat : At hv i k he) (hhek : he.hek = some hek)
    {slot : Option Nat} (hslot : ∀ oa, hv.storage = .indexed oa →
      ∃ pos, slot = some pos ∧ Refers cfg.build oa (hv.homeOf oa) pos i) (ro : Prop) [Decidable ro]
    (e : PerlError) (r : Option V) :
    Simulates (Shows cfg) (fun _ hv' => CursorKept hv hv')
      (do
        throwIf (hv.readonly = true ∧ ro) e
        if hv.readonly then modify fun hv => (hv.setVal i .placeholder).addPlaceholders 1
        else unlinkEntry cfg.build i hek slot
        pure r)
      (do
        throwIf (hv.readonly = true ∧ ro) e
        set (if hv.readonly then (hv.view.setVal k .placeholder).addPlaceholders 1
          else { hv.view.remove k hek (!hv.isLinear) with
            hasKFlags := hv.view.hasKFlags && decide (hv.keys - 1 ≠ 0) })
        pure r) hv hv.view := by
  refine (Simulates.throwIf Iff.rfl _ ⟨wf, rfl⟩).bind ?_
  rintro - hv₁ _ ⟨rfl, -⟩ ⟨wf, rfl⟩
  cases hr : hv₁.readonly with
  | true =>
    obtain ⟨hshows, hkept⟩ := hide_spec wf hat
    exact ⟨hkept, rfl, hshows⟩
  | false =>
    refine .step (wp_of_returns (unlinkEntry_spec wf hat hhek hslot) ?_)
    rintro - hv' ⟨hshows, hunv, hins⟩
    have hlive : hv'.live = erase HE.id hv₁.live (some k) := congrArg View.live hshows.2
    exact ⟨cursorKept_of_erase hlive hunv hins, rfl, hshows⟩

theorem hvDelete_spec (wf : WF cfg hv) (svReadonly : V → Bool) (discard : Bool) (k : KeyArg) :
    Simulates (Shows cfg) (fun _ hv' => CursorKept hv hv') (hvDelete cfg svReadonly discard k)
      (View.delete svReadonly discard (deleteQuery cfg k).id (!hv.isLinear)) hv hv.view := by
  unfold hvDelete View.delete
  refine .step (.right ?_)
  simp only [wp_get]
  have hkeys : hv.view.keys = hv.keys := rfl
  have hro : hv.view.readonly = hv.readonly := rfl
  rw [hkeys, hro]
  by_cases h0 : hv.keys = 0
  · have hlive : hv.view.live = [] := List.eq_nil_of_length_eq_zero (wf.view.keys.symm.trans h0)
    have hnone : hv.view.find (deleteQuery cfg k).id = none := by
      simp [View.find, hlive, find]
    simp only [h0, if_true, hnone, ne_eq, not_true_eq_false, and_false, Simulates, returns, wp_pure,
      wp_bind, wp_throwIf, false_implies, not_false_eq_true, forall_const, true_and]
    exact ⟨.refl hv, wf, rfl⟩
  · rw [if_neg h0]
    rcases oaFind_view wf (deleteQuery cfg k).id with ⟨i, hek, val, slot, hat, hfind, hslot⟩ |
      ⟨slot, hnone, hfind, -⟩
    · rw [hfind, hat.find wf]
      refine .step ((wp_entryAt hat).mpr ?_)
      cases val with
      | placeholder => exact ⟨.refl hv, rfl, wf, rfl⟩
      | null => exact deleteAt_spec wf hat rfl hslot _ _ _
      | sv v => exact deleteAt_spec wf hat rfl hslot _ _ _
    · rw [hfind, hnone]
      refine (Simulates.throwIf (R := Shows cfg) (by simp [h0]) _ ⟨wf, rfl⟩).bind ?_
      rintro - hv₁ v₁ ⟨rfl, -⟩ ⟨wf₁, rfl⟩
      exact ⟨.refl _, rfl, wf₁, rfl⟩

theorem deleteAt_throws (wf : WF cfg hv) (hat : At hv i k he) (hhek : he.hek = some hek)
    {slot : Option Nat} (hslot : ∀ oa, hv.storage = .indexed oa →
      ∃ pos, slot = some pos ∧ Refers cfg.build oa (hv.homeOf oa) pos i) (ro : Prop) [Decidable ro]
    (e : PerlError) (r : Option V) :
    wp (do
        throwIf (hv.readonly = true ∧ ro) e
        if hv.readonly then modify fun hv => (hv.setVal i .placeholder).addPlaceholders 1
        else unlinkEntry cfg.build i hek slot
        pure r) hv (fun _ _ => True) fun _ hv' => hv' = hv := by
  simp only [wp_bind, wp_throwIf, wp_ite, wp_modify, wp_pure]
  refine ⟨fun _ => trivial, fun _ => ⟨fun _ => trivial, fun hro => ?_⟩⟩
  exact wp_of_returns (unlinkEntry_spec wf hat hhek hslot) fun _ _ _ => trivial

theorem hvDelete_throws (wf : WF cfg hv) (svReadonly : V → Bool) (discard : Bool) (k : KeyArg) :
    wp (hvDelete cfg svReadonly discard k) hv (fun _ _ => True) fun _ hv' => hv' = hv := by
  unfold hvDelete
  simp only [wp_bind, wp_get]
  by_cases h0 : hv.keys = 0
  · rw [if_pos h0]
    trivial
  · rw [if_neg h0]
    rcases oaFind_view wf (deleteQuery cfg k).id with ⟨i, hek, val, slot, hat, hfind, hslot⟩ |
      ⟨slot, -, hfind, -⟩
    · rw [hfind]
      dsimp only
      rw [wp_bind, wp_entryAt hat]
      cases val with
      | placeholder => trivial
      | null => exact deleteAt_throws wf hat rfl hslot _ _ _
      | sv v => exact deleteAt_throws wf hat rfl hslot _ _ _
    · rw [hfind]
      simp only [wp_bind, wp_throwIf, wp_pure]
      exact ⟨fun _ => trivial, fun _ => trivial⟩

theorem hvDelete_kept (wf : WF cfg hv) (svReadonly : V → Bool) (discard : Bool) (k : KeyArg) :
    wp (hvDelete cfg svReadonly discard k) hv
      (fun _ hv' => WF cfg hv' ∧ CursorKept hv hv' ∧
        hv.view.Deletes (deleteQuery cfg k).id (!hv.isLinear) hv'.view)
      fun _ hv' => hv' = hv := by
  have hsim := hvDelete_spec wf svReadonly discard k
  obtain ⟨hsame, wf', hview⟩ := hsim.outcome
  obtain ⟨hkept, -⟩ := wp_iff.mp hsim
  obtain ⟨hdel, -⟩ := wp_iff.mp (View.delete_spec hv.view svReadonly discard (deleteQuery cfg k).id
    (!hv.isLinear))
  refine wp_iff.mpr ⟨fun r hr => ⟨wf', (hkept r hr).1, ?_⟩,
    (wp_iff.mp (hvDelete_throws wf svReadonly discard k)).2⟩
  rw [hview]
  exact hdel r (hsame.symm.trans hr)

end XPerl.Hash
