import XPerl.Hash.Insertion

/-! Iteration: the cursor runs over the live entries in storage order. -/

namespace XPerl.Hash

open XPerl.Framework XPerl.Framework.Exec

variable {V : Type} {cfg : Config} {hv hv' : HV V} {i : Nat} {he : HE V} {hek : HEK}

theorem slots_congr (hl : hv'.hvEntryLimit = hv.hvEntryLimit)
    (hf : hv'.hvEntryFirst = hv.hvEntryFirst) : hv'.slots = hv.slots :=
  slots_eq_of hl fun i _ => by rw [hf]

theorem storageOk_of_first (wf : WF cfg hv) {oa : OA V} {es : List (HE V)}
    (hs : hv.storage = .indexed oa) (hlen : es.length = oa.entries.length)
    (hs' : hv'.storage = .indexed { oa with entries := es }) (hk : hv'.keys = hv.keys)
    (hf : hv'.hvEntryFirst = hv.hvEntryFirst) : StorageOk cfg hv' := by
  have hx := wf.indexed hs
  have hused : ({ oa with entries := es } : OA V).used = oa.used := hlen
  obtain ⟨h1, h2, h3, h4, h5⟩ := hx.sized
  simp only [StorageOk, hs']
  refine ⟨⟨h1, h2, h3, by rw [hused]; exact h4, fun hb => by rw [hused]; exact h5 hb⟩, ?_, ?_⟩
  · have hhome : hv'.homeOf { oa with entries := es } = hv.homeOf oa := by
      funext j
      simp only [HV.homeOf, hf]
    rw [hhome]
    exact hx.index.withEntries es
  · have hload := hx.load
    unfold indexLoad at hload ⊢
    rw [hk]
    exact hload

theorem indexed_of_lazydel (wf : WF cfg hv) (hl : hv.lazydel = true) :
    ∃ oa, hv.storage = .indexed oa := by
  have hst := wf.storage
  cases hs : hv.storage with
  | unallocated n => simp [StorageOk, hs, hl] at hst
  | linear cap es => simp [StorageOk, hs, hl] at hst
  | indexed oa => exact ⟨oa, rfl⟩

theorem releaseLazy_spec (wf : WF cfg hv) (hl : hv.lazydel = true) :
    Shows cfg (releaseLazy hv) hv.view.flush ∧ (releaseLazy hv).cursor = hv.cursor ∧
      (releaseLazy hv).hvEntryFirst = hv.hvEntryFirst ∧
      (releaseLazy hv).aux = hv.aux.map fun a => { a with eiter := none } := by
  obtain ⟨oa, hs⟩ := indexed_of_lazydel wf hl
  have hsome : hv.pendingHek.isSome = true := wf.view.pending.trans hl
  obtain ⟨hek, hpend⟩ := Option.isSome_iff_exists.mp hsome
  have hcur : hv.current.bind HE.hek = some hek := by simpa [HV.pendingHek, hl] using hpend
  have hent := entries_indexed hs
  -- the position of the deleted entry, if it has one, becomes vacant
  obtain ⟨es, hlen, hdef, hfirst⟩ : ∃ es : List (HE V), es.length = oa.entries.length ∧
      releaseLazy hv = { hv with
        storage := .indexed { oa with entries := es }, lazydel := false
        aux := hv.aux.map fun a => { a with eiter := none }, freed := hv.freed ++ [hek.ref] } ∧
      ∀ j, es[j]?.filter (fun he => he.hek.isSome) = hv.hvEntryFirst j := by
    unfold releaseLazy
    cases he' : hv.eiter with
    | none => simp [HV.current, he'] at hcur
    | some e =>
      cases e with
      | retired r =>
        have hr : r.hek = some hek := by simpa [HV.current, he'] using hcur
        refine ⟨oa.entries, rfl, ?_, fun j => ?_⟩
        · simp [freeLazy, hr, HV.freeKey, hs]
        · rw [hvEntryFirst_indexed hs]
          simp [HV.isCurrent, he']
      | slot i =>
        have hi : hv.entries[i]?.bind HE.hek = some hek := by simpa [HV.current, he'] using hcur
        refine ⟨oa.entries.modify i fun _ => HE.vacant, by simp, ?_, fun j => ?_⟩
        · have hi' : (HV.entries { hv with
              lazydel := false
              aux := hv.aux.map fun a => { a with eiter := none } })[i]?.bind HE.hek = some hek := hi
          simp only [freeLazy]
          rw [oaFreeDeleted_eq hi']
          simp only [HV.freeKey, HV.modifyEntry, HV.withEntries, HV.entries, hs,
            Storage.withEntries]
        · rw [hvEntryFirst_indexed hs, List.getElem?_modify]
          by_cases h : i = j
          · subst h
            cases hg : oa.entries[i]? with
            | none => simp
            | some x => simp [HE.vacant, HV.isCurrent, he', hl, Option.filter]
          · have hb : (i == j) = false := by simpa using h
            simp [h, HV.isCurrent, he', hb]
  have hst' : (releaseLazy hv).storage = .indexed { oa with entries := es } := by rw [hdef]
  have hf : (releaseLazy hv).hvEntryFirst = hv.hvEntryFirst := by
    funext j
    have hlz : (releaseLazy hv).lazydel = false := by rw [hdef]
    rw [hvEntryFirst_indexed hst', ← hfirst j]
    simp [hlz]
  have hslots : (releaseLazy hv).slots = hv.slots := by
    refine slots_congr ?_ hf
    rw [HV.hvEntryLimit, HV.hvEntryLimit, entries_indexed hst', hent]
    exact hlen
  have heit : (releaseLazy hv).eiter = none := by
    rw [hdef]
    unfold HV.eiter
    cases hv.aux <;> rfl
  have hriter : (releaseLazy hv).riter = hv.riter := by
    rw [hdef]
    unfold HV.riter
    cases hv.aux <;> rfl
  have hview : (releaseLazy hv).view = hv.view.flush := by
    have hlive : (releaseLazy hv).live = hv.live := by rw [HV.live, hslots]; rfl
    have hcid : (releaseLazy hv).currentId = none := by
      simp [HV.currentId, HV.current, heit]
    have hpen : (releaseLazy hv).pendingHek = none := by
      simp [HV.pendingHek, HV.current, heit]
    have hold : hv.currentId = none := by simp [HV.currentId, hl]
    simp only [HV.view, hlive, hcid, hpen]
    rw [hdef]
    simp [View.flush, hold, hpend]
  have hcursor : (releaseLazy hv).cursor = hv.cursor := by
    have hins : (releaseLazy hv).aux.any Aux.iterInserted = hv.aux.any Aux.iterInserted := by
      rw [hdef]
      cases hv.aux <;> rfl
    have hpres : (releaseLazy hv).aux.isSome = hv.aux.isSome := by
      rw [hdef]
      cases hv.aux <;> rfl
    simp only [HV.cursor, HV.unvisited, hslots, hriter, hins, hpres]
  refine ⟨⟨⟨storageOk_of_first wf hs hlen hst' (by rw [hdef]) hf, ⟨?_, ?_, ?_⟩, ?_⟩, hview⟩,
    hcursor, hf, by rw [hdef]⟩
  · rw [hriter]
    exact wf.cursor.riter
  · simp [heit]
  · simp [heit]
  · rw [hview]
    exact wf.view.flush

theorem first_withAux (hl : hv.lazydel = false) (aux : Option (Aux V)) :
    ({ hv with aux := aux } : HV V).hvEntryFirst = hv.hvEntryFirst := by
  funext i
  simp [HV.hvEntryFirst, hl]

theorem withAux_spec (wf : WF cfg hv) (hl : hv.lazydel = false) {aux : Option (Aux V)}
    (hr : -1 ≤ ({ hv with aux := aux } : HV V).riter)
    (hslot : ∀ i, ({ hv with aux := aux } : HV V).eiter = some (.slot i) →
      (hv.hvEntryFirst i).isSome = true)
    (hret : ∀ r, ({ hv with aux := aux } : HV V).eiter ≠ some (.retired r)) :
    Shows cfg { hv with aux := aux }
        { hv.view with current := ({ hv with aux := aux } : HV V).currentId } ∧
      ({ hv with aux := aux } : HV V).slots = hv.slots := by
  set hv' : HV V := { hv with aux := aux }
  have hf : hv'.hvEntryFirst = hv.hvEntryFirst := first_withAux hl aux
  have hslots : hv'.slots = hv.slots := slots_congr rfl hf
  have hview : hv'.view = { hv.view with current := hv'.currentId } := by
    have hlive : hv'.live = hv.live := by rw [HV.live, hslots]; rfl
    have hpen : hv'.pendingHek = hv.pendingHek := by simp [HV.pendingHek, hv', hl]
    simp only [HV.view, hlive, hpen]
    rfl
  have hok := wf.view
  refine ⟨⟨⟨?_, ⟨hr, fun i hi _ => ?_, fun r h => absurd h (hret r)⟩, ?_⟩, hview⟩, hslots⟩
  · have hst := wf.storage
    have hst' : hv'.storage = hv.storage := rfl
    unfold StorageOk at hst ⊢
    rw [hst']
    cases hs : hv.storage with
    | unallocated n => simpa only [hs] using hst
    | linear cap es => simpa only [hs] using hst
    | indexed oa =>
      simp only [hs] at hst
      refine ⟨hst.sized, ?_, hst.load⟩
      have hhome : hv'.homeOf oa = hv.homeOf oa := by
        funext j
        simp only [HV.homeOf, hf]
      rw [hhome]
      exact hst.index
  · rw [hf]
    exact hslot i hi
  · rw [hview]
    exact ⟨hok.heks, hok.keys, hok.distinct, hok.pending, hok.refs⟩

theorem flush_of_not_lazy (hl : hv.lazydel = false) : hv.view.flush = hv.view := by
  have hp : hv.pendingHek = none := by simp [HV.pendingHek, hl]
  simp [View.flush, HV.view, hp, hl]

theorem rewind_spec (aux : Option (Aux V)) (wf : WF cfg hv) (hl : hv.lazydel = false)
    (hr : ∀ a ∈ aux, a.riter = -1) (he : ∀ a ∈ aux, a.eiter = none) :
    Shows cfg { hv with aux := aux } { hv.view with current := none } ∧
      ({ hv with aux := aux } : HV V).unvisited = hv.live := by
  have heit : ({ hv with aux := aux } : HV V).eiter = none := by
    unfold HV.eiter
    cases ha : aux with
    | none => rfl
    | some a => simpa using he a (by simp [ha])
  have hrit : ({ hv with aux := aux } : HV V).riter = -1 := by
    unfold HV.riter
    cases ha : aux with
    | none => rfl
    | some a => simpa using hr a (by simp [ha])
  obtain ⟨h1, h2⟩ := withAux_spec wf hl (by rw [hrit]) (by simp [heit]) (by simp [heit])
  refine ⟨?_, ?_⟩
  · have hcid : ({ hv with aux := aux } : HV V).currentId = none := by
      simp [HV.currentId, HV.current, heit]
    rwa [hcid] at h1
  · rw [HV.unvisited, h2, hrit]
    rfl

theorem not_lazy_of_no_aux (wf : WF cfg hv) (ha : hv.aux = none) : hv.lazydel = false := by
  by_contra h
  have hsome : hv.pendingHek.isSome = true := wf.view.pending.trans (eq_true_of_ne_false h)
  obtain ⟨hek, hp⟩ := Option.isSome_iff_exists.mp hsome
  simp [HV.pendingHek, HV.current, HV.eiter, ha] at hp

theorem hvIterinit_spec (wf : WF cfg hv) :
    returns (hvIterinit cfg) hv fun n hv' =>
      n = hv'.keys ∧ Shows cfg hv' { hv.view.flush with current := none } ∧
        hv'.unvisited = hv'.live ∧ hv'.cursor.inserted = false ∧ hv'.aux.isSome = true := by
  have hreset : ∀ hv₁ : HV V, WF cfg hv₁ → hv₁.lazydel = false → hv₁.aux.isSome = true →
      Shows cfg (hv₁.modifyAux fun a =>
          { a with riter := -1, eiter := none, iterInserted := false, iterActive := false })
        { hv₁.view with current := none } ∧
      (hv₁.modifyAux fun a =>
          { a with riter := -1, eiter := none, iterInserted := false, iterActive := false }).unvisited =
        hv₁.live ∧
      (hv₁.modifyAux fun a => { a with
          riter := -1, eiter := none, iterInserted := false, iterActive := false }).cursor.inserted =
        false ∧
      (hv₁.modifyAux fun a => { a with
          riter := -1, eiter := none, iterInserted := false, iterActive := false }).aux.isSome = true := by
    intro hv₁ wf₁ hl₁ ha₁
    obtain ⟨a, ha⟩ := Option.isSome_iff_exists.mp ha₁
    obtain ⟨h1, h2⟩ := rewind_spec (hv₁.aux.map fun a =>
      { a with riter := -1, eiter := none, iterInserted := false, iterActive := false }) wf₁ hl₁
      (by simp [ha]) (by simp [ha])
    exact ⟨h1, h2, by simp [HV.cursor, HV.modifyAux, ha], by simp [HV.modifyAux, ha]⟩
  have hlive : ∀ (hv₁ : HV V) v, Shows cfg hv₁ v → hv₁.live = v.live :=
    fun _ _ h => congrArg View.live h.2
  simp only [hvIterinit, returns, wp_bind, wp_get, wp_ite, wp_modify, wp_pure]
  refine ⟨fun haux => ⟨fun hl => ?_, fun hl => ?_⟩, fun haux => ?_⟩
  · obtain ⟨⟨wf₁, hview₁⟩, -, -, haux₁⟩ := releaseLazy_spec wf hl
    obtain ⟨h1, h2, h3, h4⟩ := hreset _ wf₁ (congrArg View.lazydel hview₁)
      (by rw [haux₁]; simpa using haux)
    have hl' := hlive _ _ h1
    rw [hview₁] at h1
    exact ⟨trivial, h1, h2.trans hl'.symm, h3, h4⟩
  · have hl : hv.lazydel = false := by simpa using hl
    obtain ⟨h1, h2, h3, h4⟩ := hreset _ wf hl haux
    have hl' := hlive _ _ h1
    rw [← flush_of_not_lazy hl] at h1
    exact ⟨trivial, h1, h2.trans hl'.symm, h3, h4⟩
  · have hnone : hv.aux = none := by simpa using haux
    have hl := not_lazy_of_no_aux wf hnone
    simp only [hvAuxinit, wp_bind, wp_modify]
    refine wp_of_returns (allocateArray_spec wf none) ?_
    rintro - hv₁ ⟨hroom, -, -⟩
    have hview := hroom.kept.view
    obtain ⟨h1, h2⟩ := rewind_spec (some ⟨-1, none, false, false⟩) hroom.kept.wf
      ((congrArg View.lazydel hview).trans hl) (by simp) (by simp)
    have hl' := hlive _ _ h1
    rw [hview, ← flush_of_not_lazy hl] at h1
    exact ⟨trivial, h1, h2.trans hl'.symm, rfl, rfl⟩

def NextIn (wantPlaceholders : Bool) (unvisited : List (HE V)) (r : Option (HE V))
    (rest : List (HE V)) : Prop :=
  match r with
  | none => ∀ x ∈ unvisited, wanted wantPlaceholders x = false
  | some he => wanted wantPlaceholders he = true ∧
      ∃ pre, unvisited = pre ++ he :: rest ∧ ∀ x ∈ pre, wanted wantPlaceholders x = false

theorem nextPosition_spec (hv : HV V) (want : Bool) :
    match nextPosition hv want with
    | none => NextIn want hv.unvisited none []
    | some i => ∃ he, hv.hvEntryFirst i = some he ∧
        NextIn want hv.unvisited (some he) (hv.slots.drop (i + 1)).reduceOption := by
  have hfind := SparseList.find_position hv.hvEntryFirst hv.hvEntryLimit (hv.riter + 1).toNat
    (wanted want)
  have hpos : nextPosition hv want = (List.range hv.hvEntryLimit).find? fun i =>
      decide ((hv.riter + 1).toNat ≤ i) && (hv.hvEntryFirst i).any (wanted want) := rfl
  simp only [← hpos] at hfind
  cases h : nextPosition hv want with
  | none =>
    simp only [h] at hfind
    exact hfind
  | some i =>
    simp only [h] at hfind
    obtain ⟨x, pre, hx, hwx, hsplit, hpre⟩ := hfind
    exact ⟨x, hx, hwx, pre, hsplit, hpre⟩

theorem iterReset_spec (wf : WF cfg hv) (hl : hv.lazydel = false) :
    returns (iterReset) hv fun _ hv' => Shows cfg hv' { hv.view with current := none } ∧
      hv'.cursor.inserted = hv.cursor.inserted := by
  obtain ⟨h1, -⟩ := rewind_spec (hv.aux.map fun a =>
    { a with riter := -1, eiter := none, iterActive := false }) wf hl (by simp) (by simp)
  refine ⟨h1, ?_⟩
  show (hv.aux.map fun a => { a with riter := -1, eiter := none, iterActive := false }).any
    Aux.iterInserted = _
  cases h : hv.aux <;> simp [HV.cursor, h]

theorem iterAdvance_spec (wf : WF cfg hv) (hl : hv.lazydel = false) (ha : hv.aux.isSome = true)
    (want : Bool) :
    returns (iterAdvance want) hv fun r hv' => Shows cfg hv' { hv.view with current := r.bind HE.id } ∧
      NextIn want hv.unvisited r hv'.unvisited ∧ hv'.cursor.inserted = hv.cursor.inserted := by
  have hnext := nextPosition_spec hv want
  simp only [iterAdvance, returns, wp_bind, wp_get]
  cases hp : nextPosition hv want with
  | none =>
    simp only [hp] at hnext
    simp only [wp_bind, wp_pure]
    exact wp_of_returns (iterReset_spec wf hl) fun _ hv' h => ⟨h.1, hnext, h.2⟩
  | some i =>
    simp only [hp] at hnext
    obtain ⟨he, hfirst, hnext⟩ := hnext
    obtain ⟨a, ha⟩ := Option.isSome_iff_exists.mp ha
    simp only [wp_bind, wp_set, wp_pure]
    set aux := hv.aux.map fun a =>
      { a with riter := (i : Int), eiter := some (.slot i), iterActive := hv.isLinear } with haux
    have heit : ({ hv with aux := aux } : HV V).eiter = some (.slot i) := by
      simp [HV.eiter, haux, ha]
    have hrit : ({ hv with aux := aux } : HV V).riter = i := by
      simp [HV.riter, haux, ha]
    obtain ⟨h1, h2⟩ := withAux_spec wf hl (by rw [hrit]; omega)
      (fun j hj => by
        rw [heit] at hj
        obtain rfl : i = j := by simpa using hj
        simp [hfirst]) (by simp [heit])
    have hent : hv.entries[i]? = some he := entry_of_first hfirst
    have hcid : ({ hv with aux := aux } : HV V).currentId = he.id := by
      unfold HV.currentId HV.current
      rw [heit]
      show (if hv.lazydel then none else hv.entries[i]?.bind HE.id) = _
      rw [hl, hent]
      rfl
    have hunv : ({ hv with aux := aux } : HV V).unvisited =
        (hv.slots.drop (i + 1)).reduceOption := by
      rw [HV.unvisited, h2, hrit]
      rfl
    rw [hcid] at h1
    rw [hent]
    refine ⟨h1, ?_, ?_⟩
    · show NextIn want hv.unvisited (some he) ({ hv with aux := aux } : HV V).unvisited
      rw [hunv]
      exact hnext
    · show aux.any Aux.iterInserted = _
      simp [HV.cursor, haux, ha]

theorem currentId_of_no_aux (ha : hv.aux = none) : hv.currentId = none := by
  simp [HV.currentId, HV.current, HV.eiter, ha]

theorem iterPrepare_spec (wf : WF cfg hv) :
    returns (iterPrepare cfg) hv fun _ hv' => Shows cfg hv' hv.view ∧
      hv'.unvisited = hv.unvisited ∧ (hv.cursor.inserted = false → hv'.cursor.inserted = false) ∧
      hv'.aux.isSome = true := by
  simp only [iterPrepare, returns, wp_bind, wp_get, wp_ite, wp_pure]
  refine ⟨fun haux => ?_, fun haux => ?_⟩
  · refine wp_of_returns (allocateArray_spec wf none) ?_
    rintro - hv' ⟨hroom, -, -⟩
    have hcursor := hroom.kept.cursor
    have hins : hv'.cursor.inserted = hv.cursor.inserted := congrArg Cursor.inserted hcursor
    exact ⟨hroom.kept.shows, congrArg Cursor.unvisited hcursor, hins.trans,
      (congrArg Cursor.present hcursor).trans haux⟩
  · refine wp_of_returns (hvIterinit_spec wf) ?_
    rintro - hv' ⟨-, hshows, hunv, hins, haux'⟩
    have hnone : hv.aux = none := by simpa using haux
    have hcur : hv.view.current = none := currentId_of_no_aux hnone
    have hlive : hv'.live = hv.live := congrArg View.live hshows.2
    have hflush : ({ hv.view.flush with current := none } : View V) = hv.view := by
      rw [flush_of_not_lazy (not_lazy_of_no_aux wf hnone), ← hcur]
    rw [hflush] at hshows
    refine ⟨hshows, ?_, fun _ => hins, haux'⟩
    rw [hunv, hlive, HV.unvisited, HV.riter, hnone]
    rfl

theorem sameStore_clearInserted (hv : HV V) :
    SameStore hv (hv.modifyAux fun a => { a with iterInserted := false }) := by
  refine ⟨rfl, rfl, rfl, ?_, ?_⟩
  · cases h : hv.aux <;> simp [HV.riter, HV.modifyAux, h]
  · cases h : hv.aux <;> simp [HV.eiter, HV.modifyAux, h]

theorem clearInserted_spec (wf : WF cfg hv) :
    Shows cfg (hv.modifyAux fun a => { a with iterInserted := false }) hv.view ∧
      (hv.modifyAux fun a => { a with iterInserted := false }).cursor =
        { hv.cursor with inserted := false } := by
  have hsame := sameStore_clearInserted hv
  have hview : (hv.modifyAux fun a => { a with iterInserted := false }).view = hv.view := by
    rw [hsame.view]
    rfl
  refine ⟨⟨hsame.wf wf (hview ▸ wf.view), hview⟩, ?_⟩
  have hslots : (hv.modifyAux fun a => { a with iterInserted := false }).slots = hv.slots :=
    slots_congr rfl hsame.first
  simp only [HV.cursor, HV.unvisited, hslots, hsame.riter]
  cases h : hv.aux <;> simp [HV.modifyAux, h]

theorem not_restarts (hins : hv.cursor.inserted = false) : iterRestarts hv = false := by
  cases h : hv.aux with
  | none => simp [iterRestarts, h]
  | some a =>
    simp only [HV.cursor, h, Option.any_some] at hins
    simp [iterRestarts, h, hins]

theorem hvIternextWith_spec (wf : WF cfg hv) (hl : hv.lazydel = false)
    (again : HvM V (Option (HE V))) (want : Bool) :
    returns (hvIternextWith cfg again want) hv fun r hv' =>
      Shows cfg hv' { hv.view with current := r.bind HE.id } ∧
        (hv.cursor.inserted = false →
          NextIn want hv.unvisited r hv'.unvisited ∧ hv'.cursor.inserted = false) := by
  simp only [hvIternextWith, returns, wp_bind]
  refine wp_of_returns (iterPrepare_spec wf) ?_
  rintro - hv₁ ⟨⟨wf₁, hview₁⟩, hunv₁, hins₁, haux₁⟩
  have hl₁ : hv₁.lazydel = false := (congrArg View.lazydel hview₁).trans hl
  have hlive₁ : hv₁.live = hv.live := congrArg View.live hview₁
  obtain ⟨⟨wf₂, hview₂⟩, hcursor₂⟩ := clearInserted_spec wf₁
  simp only [wp_get, wp_bind, wp_ite, wp_modify, wp_pure, hl₁, Bool.and_false, Bool.false_eq_true,
    false_implies, true_and, not_false_eq_true, forall_const]
  refine ⟨fun hnull => ?_, fun _ => ⟨fun hres => ?_, fun hres => ?_⟩⟩
  · have hk := hnull.2
    have hempty : hv.live = [] := by
      have hkl : hv₁.keys = hv₁.live.length := wf₁.view.keys
      rw [← hlive₁]
      exact List.eq_nil_of_length_eq_zero (by omega)
    have hunv : hv.unvisited = [] := by
      rw [HV.unvisited, ← SparseList.drop_reduceOption]
      show hv.live.drop _ = []
      rw [hempty, List.drop_nil]
    refine wp_of_returns (iterReset_spec wf₁ hl₁) ?_
    rintro - hv' ⟨h1, h2⟩
    rw [hview₁] at h1
    exact ⟨h1, fun hins => ⟨by simp [NextIn, hunv], h2.trans (hins₁ hins)⟩⟩
  · refine wp_of_returns (iterReset_spec wf₂ hl₁) ?_
    rintro - hv' ⟨h1, h2⟩
    rw [hview₂, hview₁] at h1
    exact ⟨h1, fun hins => by simp [not_restarts (hins₁ hins)] at hres⟩
  · have haux₂ := (congrArg Cursor.present hcursor₂).trans haux₁
    refine wp_of_returns (iterAdvance_spec wf₂ hl₁ haux₂ want) ?_
    rintro r hv' ⟨h1, h2, h3⟩
    rw [hview₂, hview₁] at h1
    have hunv₂ := (congrArg Cursor.unvisited hcursor₂).trans hunv₁
    refine ⟨h1, fun _ => ⟨?_, h3.trans (congrArg Cursor.inserted hcursor₂)⟩⟩
    rw [← hunv₂]
    exact h2

theorem hvIternextFlags_spec (wf : WF cfg hv) (want : Bool) :
    returns (hvIternextFlags cfg want) hv fun r hv' =>
      Shows cfg hv' { hv.view.flush with current := r.bind HE.id } ∧
        (hv.cursor.inserted = false →
          NextIn want hv.unvisited r hv'.unvisited ∧ hv'.cursor.inserted = false) := by
  unfold hvIternextFlags
  cases hl : hv.lazydel with
  | false =>
    rw [flush_of_not_lazy hl]
    exact hvIternextWith_spec wf hl _ want
  | true =>
    obtain ⟨oa, hs⟩ := indexed_of_lazydel wf hl
    have hnull : hv.arrayNull = false := by simp [HV.arrayNull, hs]
    have haux : hv.aux.isSome = true := by
      by_contra h
      have := not_lazy_of_no_aux wf (by simpa using h)
      simp [hl] at this
    have heit : hv.eiter.isSome = true := by
      by_contra h
      have hnone : hv.eiter = none := by simpa using h
      have hsome : hv.pendingHek.isSome = true := wf.view.pending.trans hl
      simp [HV.pendingHek, HV.current, hnone] at hsome
    conv => rw [hvIternextWith]
    simp only [returns, wp_bind, iterPrepare, wp_get, haux, if_true]
    refine wp_of_returns (allocateArray_spec wf none) ?_
    rintro - hv₁ ⟨-, -, hsame⟩
    obtain rfl : hv₁ = hv := hsame hnull
    obtain ⟨⟨wf₂, hview₂⟩, hcursor₂⟩ := clearInserted_spec wf
    set hv₂ := hv₁.modifyAux fun a => { a with iterInserted := false } with hhv₂
    have hl₂ : hv₂.lazydel = true := hl
    obtain ⟨⟨wf₃, hview₃⟩, hcursor₃, -, -⟩ := releaseLazy_spec wf₂ hl₂
    have hl₃ : (releaseLazy hv₂).lazydel = false := congrArg View.lazydel hview₃
    rw [hview₂] at hview₃
    simp only [wp_ite, wp_bind, wp_modify, wp_pure, hnull, Bool.false_eq_true, false_and,
      false_implies, true_and, not_false_eq_true, forall_const, heit, hl, Bool.and_self,
      not_true, and_true]
    refine ⟨fun hres => ?_, fun hres => ?_⟩
    · refine wp_of_returns (iterReset_spec wf₃ hl₃) ?_
      rintro - hv' ⟨h1, h2⟩
      rw [hview₃] at h1
      exact ⟨h1, fun hins => by simp [not_restarts hins] at hres⟩
    · refine wp_of_returns (hvIternextWith_spec wf₃ hl₃ _ want) ?_
      rintro r hv' ⟨h1, h2⟩
      rw [hview₃] at h1
      have hins₃ := (congrArg Cursor.inserted hcursor₃).trans (congrArg Cursor.inserted hcursor₂)
      have hunv₃ := (congrArg Cursor.unvisited hcursor₃).trans (congrArg Cursor.unvisited hcursor₂)
      refine ⟨h1, fun _ => ?_⟩
      obtain ⟨h3, h4⟩ := h2 hins₃
      refine ⟨?_, h4⟩
      rw [← show (releaseLazy hv₂).unvisited = hv₁.unvisited from hunv₃]
      exact h3

end XPerl.Hash
