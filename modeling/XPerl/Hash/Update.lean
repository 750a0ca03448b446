import XPerl.Hash.Common
import XPerl.Hash.Rebuild

/-! Changing an entry in place. -/

namespace XPerl.Hash

open XPerl.Framework XPerl.Framework.Exec

variable {V : Type} {cfg : Config} {hv hv' : HV V}

/-- Hashes that differ only in counters and flags. -/
structure SameStore (hv hv' : HV V) : Prop where
  storage : hv'.storage = hv.storage
  keys : hv'.keys = hv.keys
  lazydel : hv'.lazydel = hv.lazydel
  riter : hv'.riter = hv.riter
  eiter : hv'.eiter = hv.eiter

namespace SameStore

variable (h : SameStore hv hv')
include h

theorem first : hv'.hvEntryFirst = hv.hvEntryFirst := by
  funext i
  simp only [HV.hvEntryFirst, HV.isCurrent, h.storage, h.lazydel, h.eiter]

theorem storageOk (hs : StorageOk cfg hv) : StorageOk cfg hv' := by
  unfold StorageOk at hs ⊢
  rw [h.storage]
  cases hst : hv.storage with
  | unallocated n =>
    simp only [hst] at hs
    exact ⟨hs.1, h.lazydel.trans hs.2⟩
  | linear cap es =>
    simp only [hst] at hs
    exact ⟨hs.1, hs.2.1, hs.2.2.1, hs.2.2.2.1, h.lazydel.trans hs.2.2.2.2⟩
  | indexed oa =>
    simp only [hst] at hs
    refine ⟨hs.sized, ?_, ?_⟩
    · have hhome : hv'.homeOf oa = hv.homeOf oa := by
        funext i
        simp only [HV.homeOf, h.first]
      rw [hhome]
      exact hs.index
    · have hload : indexLoad cfg.build hv' oa = indexLoad cfg.build hv oa := by
        simp only [indexLoad, h.keys]
      rw [hload]
      exact hs.load

theorem cursorOk (hc : CursorOk hv) : CursorOk hv' := by
  refine ⟨?_, fun i hi hl => ?_, fun he hi => ?_⟩
  · rw [h.riter]
    exact hc.riter
  · rw [h.first]
    exact hc.slot i (h.eiter ▸ hi) (h.lazydel ▸ hl)
  · rw [h.lazydel]
    exact hc.retired he (h.eiter ▸ hi)

theorem view : hv'.view = { hv.view with
    placeholders := hv'.placeholders, readonly := hv'.readonly, hasKFlags := hv'.hasKFlags,
    shareKeys := hv'.shareKeys, freed := hv'.freed, nextRef := hv'.nextRef } := by
  have hes : hv'.entries = hv.entries := by rw [HV.entries, h.storage]; rfl
  have hslots : hv'.slots = hv.slots :=
    slots_eq_of (by rw [HV.hvEntryLimit, hes]; rfl) fun i _ => by rw [h.first]
  have hcurrent : hv'.current = hv.current := current_eq_of h.eiter fun i _ => by rw [hes]
  simp only [HV.view, HV.live, hslots, HV.currentId, HV.pendingHek, hcurrent, h.lazydel, h.keys]

theorem wf (hw : WF cfg hv) (hok : hv'.view.Ok) : WF cfg hv' :=
  ⟨h.storageOk hw.storage, h.cursorOk hw.cursor, hok⟩

end SameStore

/-- The live entry at position `i` has key `k`. -/
structure At (hv : HV V) (i : Nat) (k : KeyId) (he : HE V) : Prop where
  first : hv.hvEntryFirst i = some he
  id : he.id = some k

namespace At

variable {i : Nat} {k : KeyId} {he : HE V}

theorem mem (h : At hv i k he) : he ∈ hv.view.live := mem_live.mpr ⟨i, h.first⟩

theorem find (h : At hv i k he) (wf : WF cfg hv) : hv.view.find k = some he :=
  wf.view.find_of_mem h.mem h.id

theorem not_retired (h : At hv i k he) (wf : WF cfg hv) :
    (hv.lazydel && hv.isCurrent i) = false := by
  have := wf.first_of_entry (entry_of_first h.first)
  rw [h.first] at this
  by_contra hcon
  have hcon : (hv.lazydel && hv.isCurrent i) = true := by simpa using hcon
  simp [hcon] at this

theorem current (h : At hv i k he) (wf : WF cfg hv) :
    hv.isCurrent i = true ↔ hv.view.current = some k := by
  have hret := h.not_retired wf
  show _ ↔ hv.currentId = some k
  unfold HV.currentId HV.current
  refine ⟨fun hi => ?_, fun hi => ?_⟩
  · have hl : hv.lazydel = false := by simpa [hi] using hret
    simp [hl, isCurrent_iff.mp hi, entry_of_first h.first, h.id]
  · cases hl : hv.lazydel with
    | true => simp [hl] at hi
    | false =>
      cases heit : hv.eiter with
      | none => simp [hl, heit] at hi
      | some e =>
        cases e with
        | retired he' => simp [wf.cursor.retired he' heit] at hl
        | slot j =>
          obtain ⟨he', hj⟩ := Option.isSome_iff_exists.mp (wf.cursor.slot j heit hl)
          have hid : he'.id = some k := by simpa [hl, heit, entry_of_first hj] using hi
          rw [isCurrent_iff, heit, wf.unique h.first hj (h.id.trans hid.symm)]

end At

section ModifyEntry

variable {i : Nat} {k : KeyId} {he : HE V} {hek : HEK} {f : HE V → HE V}

theorem entries_modifyEntry (i : Nat) (f : HE V → HE V) :
    (hv.modifyEntry i f).entries = hv.entries.modify i f :=
  entries_withEntries fun n hs => by rw [entries_unallocated hs]; simp

theorem oaFreeDeleted_eq (h : hv.entries[i]?.bind HE.hek = some hek) :
    oaFreeDeleted hv i = (hv.modifyEntry i fun _ => HE.vacant).freeKey hek := by
  simp only [oaFreeDeleted, h]

theorem first_modifyEntry (wf : WF cfg hv) (hat : At hv i k he) (hf : (f he).id = some k)
    (j : Nat) :
    (hv.modifyEntry i f).hvEntryFirst j = if i = j then some (f he) else hv.hvEntryFirst j := by
  have hsome : (f he).hek.isSome = true := by
    cases hk : (f he).hek with
    | none => simp [HE.id, hk] at hf
    | some hek => rfl
  have hret := hat.not_retired wf
  have hentry := entry_of_first hat.first
  cases hs : hv.storage with
  | unallocated n => rw [entries_unallocated hs] at hentry; simp at hentry
  | linear cap es =>
    rw [entries_linear hs] at hentry
    have hst : (hv.modifyEntry i f).storage = .linear cap (es.modify i f) := by
      simp only [HV.modifyEntry, HV.withEntries, entries_linear hs, hs, Storage.withEntries]
    rw [hvEntryFirst_linear hst, hvEntryFirst_linear hs, List.getElem?_modify]
    split
    · rename_i h
      subst h
      simp [hentry]
    · simp
  | indexed oa =>
    rw [entries_indexed hs] at hentry
    have hst : (hv.modifyEntry i f).storage = .indexed { oa with entries := oa.entries.modify i f } := by
      simp only [HV.modifyEntry, HV.withEntries, entries_indexed hs, hs, Storage.withEntries]
    rw [hvEntryFirst_indexed hst, hvEntryFirst_indexed hs, List.getElem?_modify]
    have hcur : ∀ j, (hv.modifyEntry i f).isCurrent j = hv.isCurrent j := fun _ => rfl
    have hlazy : (hv.modifyEntry i f).lazydel = hv.lazydel := rfl
    simp only [hcur, hlazy]
    split
    · rename_i h
      subst h
      simp [hentry, hret, hsome, Option.filter]
    · simp

theorem slots_modifyEntry (wf : WF cfg hv) (hat : At hv i k he) (hf : (f he).id = some k) :
    (hv.modifyEntry i f).slots =
      hv.slots.map (Option.map fun x => if x.id = some k then f x else x) := by
  have hset := SparseList.set_eq_map (g := fun x : HE V => if x.id = some k then f x else x)
    (slots_of_first hat.first) (fun j x hj hx => if_neg fun hid => hj
      (wf.unique hat.first (first_of_slots hx) (hat.id.trans hid.symm)).symm)
  have hlim : (hv.modifyEntry i f).hvEntryLimit = hv.hvEntryLimit := by
    rw [HV.hvEntryLimit, entries_modifyEntry, List.length_modify]
    rfl
  rw [← hset, if_pos hat.id]
  apply List.ext_getElem?
  intro j
  rw [slots_getElem?, hlim, first_modifyEntry wf hat hf, List.getElem?_set, slots_getElem?,
    slots_length]
  have := lt_of_first hat.first
  split_ifs <;> first | rfl | omega

theorem live_modifyEntry (wf : WF cfg hv) (hat : At hv i k he) (hf : (f he).id = some k) :
    (hv.modifyEntry i f).live = KeyedList.update HE.id hv.live (some k) f := by
  rw [HV.live, slots_modifyEntry wf hat hf, List.reduceOption_map]
  rfl

theorem unvisited_modifyEntry (wf : WF cfg hv) (hat : At hv i k he) (hf : (f he).id = some k) :
    (hv.modifyEntry i f).unvisited = KeyedList.update HE.id hv.unvisited (some k) f := by
  rw [HV.unvisited, slots_modifyEntry wf hat hf, ← List.map_drop, List.reduceOption_map]
  rfl

theorem current_modifyEntry (hat : At hv i k he) :
    (hv.modifyEntry i f).current = if hv.isCurrent i then some (f he) else hv.current := by
  have heit : (hv.modifyEntry i f).eiter = hv.eiter := rfl
  unfold HV.current
  rw [heit]
  cases he' : hv.eiter with
  | none => simp [HV.isCurrent, he']
  | some e =>
    cases e with
    | retired r => simp [HV.isCurrent, he']
    | slot j =>
      simp only [HV.isCurrent, he', entries_modifyEntry, List.getElem?_modify, beq_iff_eq]
      by_cases h : j = i
      · subst h
        simp [entry_of_first hat.first]
      · simp [h, Ne.symm h]

theorem homeOf_modifyEntry (wf : WF cfg hv) (hat : At hv i k he) (hf : (f he).id = some k)
    (oa : OA V) : (hv.modifyEntry i f).homeOf oa = hv.homeOf oa := by
  funext j
  simp only [HV.homeOf, first_modifyEntry wf hat hf]
  split
  · rename_i h
    subst h
    rw [hat.first]
    obtain ⟨hek, hhek⟩ := wf.hek_of_first hat.first
    have hid : hek.id = k := by simpa [HE.id, hhek] using hat.id
    obtain ⟨hek', hhek', hid'⟩ := Option.map_eq_some_iff.mp hf
    have hhash : hek'.hash = hek.hash := congrArg KeyId.hash (hid'.trans hid.symm)
    simp [hhek, hhek', hhash]
  · rfl

theorem storageOk_modifyEntry (wf : WF cfg hv) (hat : At hv i k he) (hf : (f he).id = some k) :
    StorageOk cfg (hv.modifyEntry i f) := by
  have hst := wf.storage
  unfold StorageOk at hst ⊢
  cases hs : hv.storage with
  | unallocated n =>
    have := hat.first
    rw [hvEntryFirst_unallocated hs] at this
    simp at this
  | linear cap es =>
    simp only [hs] at hst
    obtain ⟨h1, h2, h3, -, h5⟩ := hst
    have hst' : (hv.modifyEntry i f).storage = .linear cap (es.modify i f) := by
      simp only [HV.modifyEntry, HV.withEntries, entries_linear hs, hs, Storage.withEntries]
    rw [hst']
    refine ⟨h1, by simpa using h2, h3, fun x hx => ?_, h5⟩
    obtain ⟨j, hj⟩ := List.mem_iff_getElem?.mp hx
    rw [← hvEntryFirst_linear hst', first_modifyEntry wf hat hf] at hj
    split at hj
    · obtain rfl := Option.some.inj hj
      obtain ⟨hek, hhek, -⟩ := Option.map_eq_some_iff.mp hf
      simp [hhek]
    · exact wf.view.heks x (mem_live.mpr ⟨j, hj⟩)
  | indexed oa =>
    simp only [hs] at hst
    have hst' : (hv.modifyEntry i f).storage =
        .indexed { oa with entries := oa.entries.modify i f } := by
      simp only [HV.modifyEntry, HV.withEntries, entries_indexed hs, hs, Storage.withEntries]
    rw [hst']
    obtain ⟨hsz, hix, hload⟩ := hst
    have hused : ({ oa with entries := oa.entries.modify i f } : OA V).used = oa.used := by
      simp [OA.used]
    refine ⟨⟨hsz.buckets, hsz.four_le, hsz.le_max, by rw [hused]; exact hsz.used_le,
      fun hb => by rw [hused]; exact hsz.position hb⟩, ?_, hload⟩
    rw [homeOf_modifyEntry wf hat hf]
    exact hix.withEntries _

theorem modifyEntry_spec (wf : WF cfg hv) (hat : At hv i k he) (hf : (f he).id = some k) :
    StorageOk cfg (hv.modifyEntry i f) ∧ CursorOk (hv.modifyEntry i f) ∧
      (hv.modifyEntry i f).view = hv.view.update k f ∧ At (hv.modifyEntry i f) i k (f he) := by
  have hfirst := first_modifyEntry wf hat hf
  have hret := hat.not_retired wf
  have hcurrent := current_modifyEntry (f := f) hat
  have hlazy : (hv.modifyEntry i f).lazydel = hv.lazydel := rfl
  refine ⟨storageOk_modifyEntry wf hat hf, ⟨wf.cursor.riter, fun j hj hl => ?_, wf.cursor.retired⟩,
    ?_, ⟨?_, hf⟩⟩
  · rw [hfirst]
    split
    · rfl
    · exact wf.cursor.slot j hj hl
  · have hpend : (hv.modifyEntry i f).pendingHek = hv.pendingHek := by
      unfold HV.pendingHek
      rw [hlazy, hcurrent]
      cases hl : hv.lazydel with
      | false => rfl
      | true =>
        have : hv.isCurrent i = false := by simpa [hl] using hret
        simp [this]
    have hid : (hv.modifyEntry i f).currentId = hv.currentId := by
      unfold HV.currentId
      rw [hlazy, hcurrent]
      by_cases hc : hv.isCurrent i = true
      · have heit := isCurrent_iff.mp hc
        simp [hc, hf, HV.current, heit, entry_of_first hat.first, hat.id]
      · simp [hc]
    simp only [HV.view, live_modifyEntry wf hat hf, hpend, hid, View.update]
    rfl
  · rw [hfirst, if_pos rfl]

end ModifyEntry

/-- A well-formed hash with the given view. -/
def Shows (cfg : Config) (hv : HV V) (v : View V) : Prop := WF cfg hv ∧ hv.view = v

theorem Kept.shows {hv' : HV V} (h : Kept cfg hv hv') : Shows cfg hv' hv.view := ⟨h.wf, h.view⟩

section Values

variable {i : Nat} {k : KeyId} {he : HE V} {hek : HEK}

theorem setVal_spec (wf : WF cfg hv) (hat : At hv i k he) (val : HeVal V) :
    Shows cfg (hv.setVal i val) (hv.view.setVal k val) ∧
      At (hv.setVal i val) i k { he with val := val } := by
  obtain ⟨h1, h2, h3, h4⟩ := modifyEntry_spec (f := fun he => { he with val := val }) wf hat hat.id
  refine ⟨⟨⟨h1, h2, ?_⟩, h3⟩, h4⟩
  show ((hv.modifyEntry i fun he => { he with val := val }).view).Ok
  rw [h3]
  exact wf.view.update hat.mem hat.id hat.id rfl

theorem addPlaceholders_spec (wf : WF cfg hv) (n : Int) :
    Shows cfg (hv.addPlaceholders n) (hv.view.addPlaceholders n) := by
  have hsame : SameStore hv (hv.addPlaceholders n) := ⟨rfl, rfl, rfl, rfl, rfl⟩
  have hok := wf.view
  exact ⟨hsame.wf wf ⟨hok.heks, hok.keys, hok.distinct, hok.pending, hok.refs⟩, rfl⟩

theorem setCounts_spec (wf : WF cfg hv) (placeholders : Option Int) (flags : Bool) :
    Shows cfg { hv with placeholders := placeholders, hasKFlags := flags }
      { hv.view with placeholders := placeholders, hasKFlags := flags } := by
  have hsame : SameStore hv { hv with placeholders := placeholders, hasKFlags := flags } :=
    ⟨rfl, rfl, rfl, rfl, rfl⟩
  have hok := wf.view
  exact ⟨hsame.wf wf ⟨hok.heks, hok.keys, hok.distinct, hok.pending, hok.refs⟩, rfl⟩

theorem hvPlaceholdersSet_zero (hv : HV V) :
    hv.hvPlaceholdersSet 0 = { hv with placeholders := hv.placeholders.map fun _ => 0 } := by
  obtain ⟨storage, keys, placeholders, readonly⟩ := hv
  cases placeholders <;> rfl

def Query.stored (q : Query) : StoredKey := ⟨q.id, q.wasUtf8⟩

theorem setHek_spec (wf : WF cfg hv) (hat : At hv i k he) (hek' : HEK) (hid : hek'.id = k)
    {freed : List Nat} {nextRef : Nat} {hasKFlags : Bool}
    (hok : ({ hv.view.update k fun he => { he with hek := some hek' } with
      freed := freed, nextRef := nextRef } : View V).Ok) :
    Shows cfg { hv.setHek i hek' with freed := freed, nextRef := nextRef, hasKFlags := hasKFlags }
        { hv.view.update k fun he => { he with hek := some hek' } with
          freed := freed, nextRef := nextRef, hasKFlags := hasKFlags } ∧
      At ({ hv.setHek i hek' with
        freed := freed, nextRef := nextRef, hasKFlags := hasKFlags } : HV V) i k
        ⟨some hek', he.val⟩ := by
  obtain ⟨h1, h2, h3, h4⟩ := modifyEntry_spec (f := fun he => { he with hek := some hek' }) wf hat
    (by simp [HE.id, hid])
  have hsame : SameStore (hv.setHek i hek') { hv.setHek i hek' with
      freed := freed, nextRef := nextRef, hasKFlags := hasKFlags } := ⟨rfl, rfl, rfl, rfl, rfl⟩
  have hview : ({ hv.setHek i hek' with
      freed := freed, nextRef := nextRef, hasKFlags := hasKFlags } : HV V).view =
      { hv.view.update k fun he => { he with hek := some hek' } with
        freed := freed, nextRef := nextRef, hasKFlags := hasKFlags } := by
    rw [← h3]
    rfl
  refine ⟨⟨⟨hsame.storageOk h1, hsame.cursorOk h2, ?_⟩, hview⟩, ⟨h4.first, h4.id⟩⟩
  rw [hview]
  exact ⟨hok.heks, hok.keys, hok.distinct, hok.pending, hok.refs⟩

theorem adoptWasUtf8_spec (wf : WF cfg hv) {q : Query} (hat : At hv i q.id he)
    (hhek : he.hek = some hek) :
    Simulates (Shows cfg) (fun _ hv' => (∃ hek', At hv' i q.id ⟨some hek', he.val⟩) ∧
        hv'.keys = hv.keys ∧ hv'.placeholders = hv.placeholders)
      (adoptWasUtf8 q i) (View.adopt q.stored hek) hv hv.view := by
  have hent : hv.entries[i]?.bind HE.hek = some hek := by
    rw [entry_of_first hat.first]
    exact hhek
  have hid : hek.id = q.id := by simpa [HE.id, hhek] using hat.id
  unfold Simulates adoptWasUtf8 View.adopt
  by_cases hw : hek.wasUtf8 = q.wasUtf8
  · simp only [returns, wp_bind, wp_get, hent, if_neg (not_not.mpr hw), wp_pure,
      if_neg (show ¬hek.wasUtf8 ≠ q.stored.wasUtf8 from not_not.mpr hw)]
    exact ⟨⟨⟨hek, by rw [← hhek]; exact hat⟩, trivial, trivial⟩, trivial, wf, rfl⟩
  by_cases hn : hek.notShared = true
  · have hneg : (!hek.wasUtf8) = q.wasUtf8 := by
      revert hw
      cases hek.wasUtf8 <;> cases q.wasUtf8 <;> simp
    simp only [returns, wp_bind, wp_get, hent, if_pos hw, if_pos hn, wp_modify, noteKFlags, hneg,
      if_pos (show hek.wasUtf8 ≠ q.stored.wasUtf8 from hw)]
    obtain ⟨h1, h2⟩ := setHek_spec wf hat
      { hek with wasUtf8 := q.wasUtf8 } hid
      (wf.view.update hat.mem hat.id (congrArg some hid) (by simp [HE.ref, hhek]))
    exact ⟨⟨⟨_, h2.first, h2.id⟩, rfl, rfl⟩, trivial, h1⟩
  · by_cases hlong : q.octets.length > i32Max
    · simp only [returns, wp_bind, wp_get, hent, if_pos hw, if_neg hn, wp_modify, shareHekFlags,
        wp_throwIf, if_pos (show hek.wasUtf8 ≠ q.stored.wasUtf8 from hw)]
      have hlong' : q.stored.id.key.length > i32Max := hlong
      exact ⟨fun _ => ⟨fun _ => ⟨trivial, wf, rfl⟩, fun h => absurd hlong' h⟩,
        fun h => absurd hlong h⟩
    · simp only [returns, wp_bind, wp_get, hent, if_pos hw, if_neg hn, wp_modify, shareHekFlags,
        wp_throwIf, if_pos (show hek.wasUtf8 ≠ q.stored.wasUtf8 from hw), wp_set, wp_pure, noteKFlags]
      have hlong' : ¬q.stored.id.key.length > i32Max := hlong
      obtain ⟨h1, h2⟩ := setHek_spec wf hat
        (q.stored.hek false hv.nextRef) rfl
        (wf.view.share hat.mem hhek hat.id rfl rfl)
      exact ⟨fun h => absurd h hlong, fun _ => ⟨⟨⟨_, h2.first, h2.id⟩, rfl, rfl⟩,
        fun h => absurd h hlong', fun _ => ⟨trivial, h1⟩⟩⟩

end Values

end XPerl.Hash
