import XPerl.Hash.Growth
import XPerl.Hash.Update

/-! Adding an entry for a key that is not in the hash. -/

namespace XPerl.Hash

open XPerl.Framework XPerl.Framework.Exec

variable {V : Type} {cfg : Config} {hv hv' : HV V} {i : Nat} {he : HE V} {hek : HEK} {q : Query}
  {slot : Option Nat}

theorem keys_unallocated (wf : WF cfg hv) {n : Nat} (h : hv.storage = .unallocated n) :
    hv.keys = 0 := by
  have hk := wf.keys_eq
  have := live_length_le hv
  rw [entries_unallocated h] at this
  simp only [List.length_nil] at this
  omega

variable {cap : Nat} {es : List (HE V)} {oa : OA V}

theorem linear_of_unallocated (wf : WF cfg hv) {n : Nat} (hs : hv.storage = .unallocated n)
    (hlin : cfg.linearEnabled = true) (hcap : cap ≤ cfg.linearMax) :
    Kept cfg hv { hv with storage := .linear cap [] } := by
  have hst := wf.storage
  simp only [StorageOk, hs] at hst
  have hst' : ({ hv with storage := .linear cap [] } : HV V).storage = .linear cap [] := rfl
  have hfirst : ({ hv with storage := .linear cap [] } : HV V).hvEntryFirst = hv.hvEntryFirst := by
    funext i
    rw [hvEntryFirst_linear hst', hvEntryFirst_unallocated hs]
    rfl
  obtain ⟨h1, h2, h3⟩ := withStorage_spec _
    (by rw [entries_linear hst', entries_unallocated hs]) hfirst
  refine ⟨⟨?_, h3 wf.cursor, h1 ▸ wf.view⟩, h1, h2⟩
  exact ⟨by simpa [Config.linearEnabled] using hlin, Nat.zero_le _, hcap, by simp, hst.2⟩

theorem allocateArray_spec (wf : WF cfg hv) (slot : Option Nat) :
    returns (allocateArray cfg) hv fun _ hv' =>
      MakesRoom cfg hv slot hv' slot ∧ (∀ n, hv'.storage ≠ .unallocated n) ∧
        (hv.arrayNull = false → hv' = hv) := by
  have hst := wf.storage
  simp only [allocateArray, returns, wp_bind, wp_get, wp_ite, wp_set, wp_pure]
  refine ⟨fun hnull => ?_, fun hnull => ⟨.refl wf slot, fun n hn => ?_, fun _ => trivial⟩⟩
  · cases hs : hv.storage with
    | indexed oa => simp [HV.arrayNull, hs] at hnull
    | unallocated n =>
      simp only [StorageOk, hs] at hst
      have hk := keys_unallocated wf hs
      have hslot : ∀ (hv' : HV V) hash, SavedSlot cfg.build hv hash slot → SavedSlot cfg.build hv' hash slot := by
        intro hv' hash h pos hpos
        obtain ⟨oa, ho, -⟩ := h pos hpos
        simp [hs] at ho
      refine ⟨fun hlin => ?_, fun _ => ?_⟩
      · exact ⟨⟨linear_of_unallocated wf hs hlin (Nat.zero_le _), fun hash => hslot _ hash⟩,
          by simp, fun h => by simp [hnull] at h⟩
      · have hbc : hv.bucketCount = n := by simp [HV.bucketCount, hs]
        rw [hbc]
        refine wp_of_returns (oaIndexResize_spec wf hst.1 (by omega)) ?_
        rintro - hv' ⟨hkept, oa, -, hst', -⟩
        exact ⟨⟨hkept, fun hash => hslot _ hash⟩, by simp [hst'], fun h => by simp [hnull] at h⟩
    | linear cap es =>
      simp only [StorageOk, hs] at hst
      obtain rfl : cap = 0 := by simpa [HV.arrayNull, hs] using hnull
      obtain rfl : es = [] := List.eq_nil_of_length_eq_zero (by omega)
      refine ⟨fun _ => ?_, fun hlin => absurd ?_ hlin⟩
      · rw [← hs]
        exact ⟨.refl wf slot, by simp [hs], fun _ => rfl⟩
      · simpa [Config.linearEnabled] using hst.1
  · simp [HV.arrayNull, hn] at hnull

/-- Position `i` is the one that the next entry takes. -/
def Fresh (cfg : Config) (hv : HV V) (i : Nat) : Prop :=
  match hv.storage with
  | .unallocated _ => False
  | .linear cap es => i = es.length ∧ es.length < cap
  | .indexed oa => oa.used = i + 1 ∧ oa.entries[i]? = some HE.vacant ∧
      indexLoad cfg.build hv oa < oaEntryCapacity oa.buckets

theorem linearResize_spec (wf : WF cfg hv) {cap' : Nat}
    (hs : hv.storage = .linear cap es) (hle : es.length ≤ cap') (hmax : cap' ≤ cfg.linearMax) :
    Kept cfg hv { hv with storage := .linear cap' es } := by
  have hst := wf.storage
  simp only [StorageOk, hs] at hst
  have hst' : ({ hv with storage := .linear cap' es } : HV V).storage = .linear cap' es := rfl
  obtain ⟨h1, h2, h3⟩ := withStorage_spec _
    (by rw [entries_linear hst', entries_linear hs])
    (by funext i; rw [hvEntryFirst_linear hst', hvEntryFirst_linear hs])
  exact ⟨⟨⟨hst.1, hle, hmax, hst.2.2.2.1, hst.2.2.2.2⟩, h3 wf.cursor, h1 ▸ wf.view⟩, h1, h2⟩

theorem keys_linear (wf : WF cfg hv)
    (hs : hv.storage = .linear cap es) : hv.keys = es.length := by
  have hk := wf.keys_eq
  rw [hk, HV.live, slots_linear hs]
  simp [List.reduceOption]

theorem oaNewEntry_fresh (wf : WF cfg hv) (hs : hv.storage = .indexed oa)
    (hmax : hv.keys < hvMaxKeys) (slot : Option Nat) :
    returns (oaNewEntry cfg.build slot) hv fun r hv' =>
      MakesRoom cfg hv slot hv' r.2 ∧ Fresh cfg hv' r.1 := by
  refine wp_of_returns (oaNewEntry_spec wf hs hmax slot) ?_
  rintro r hv' ⟨hroom, oa', hst', hused, hvac, hload⟩
  refine ⟨hroom, ?_⟩
  simp only [Fresh, hst']
  exact ⟨hused, hvac, hload⟩

theorem linearNewEntry_spec (wf : WF cfg hv)
    (hs : hv.storage = .linear cap es) (hmax : hv.keys < hvMaxKeys) :
    returns (linearNewEntry cfg) hv fun i hv' => Kept cfg hv hv' ∧ Fresh cfg hv' i := by
  have hst := wf.storage
  simp only [StorageOk, hs] at hst
  obtain ⟨hlin, hlen, hcap, -, -⟩ := hst
  have h8 := cfg.linearMax_le
  have hk := keys_linear wf hs
  simp only [linearNewEntry, returns, wp_bind, wp_get, hs, wp_ite, wp_set, wp_pure, wp_throwIf]
  refine ⟨fun hnone => ?_, fun hne => ⟨fun hfull => ⟨fun hlt => ⟨?_, fun _ => ?_⟩, fun hge => ?_⟩,
    fun hroom => ?_⟩⟩
  · obtain ⟨hc, he⟩ := hnone
    obtain rfl : es = [] := List.eq_nil_of_length_eq_zero he
    refine ⟨linearResize_spec wf hs (Nat.zero_le _) (by omega), ?_⟩
    simp [Fresh]
  · rintro (h | h) <;> split at h <;> omega
  · simp only [linearReserve, wp_modify, hs]
    have hgrow : cap < min (if cap = 0 then 1 else cap * 2) cfg.linearMax := by
      split <;> omega
    rw [if_neg (by omega)]
    refine ⟨linearResize_spec wf hs (by omega) (Nat.min_le_right _ _), ?_⟩
    simp only [Fresh, true_and]
    omega
  · refine wp_of_returns (oaPromote_spec wf (by omega)) ?_
    rintro - hv₁ ⟨hkept, oa, hst₁⟩
    refine wp_of_returns (oaNewEntry_fresh hkept.wf hst₁ (by rw [hkept.keys]; exact hmax) none) ?_
    rintro r hv₂ ⟨hroom, hfresh⟩
    exact ⟨hkept.trans hroom.kept, hfresh⟩
  · refine ⟨.refl wf, ?_⟩
    simp only [Fresh, hs, true_and]
    omega

theorem newEntry_spec (wf : WF cfg hv) (hst : ∀ n, hv.storage ≠ .unallocated n)
    (hmax : hv.keys < hvMaxKeys) (slot : Option Nat) :
    returns (newEntry cfg slot) hv fun r hv' =>
      MakesRoom cfg hv slot hv' r.2 ∧ Fresh cfg hv' r.1 := by
  simp only [newEntry, returns, wp_bind, wp_get]
  cases hs : hv.storage with
  | unallocated n => exact absurd hs (hst n)
  | linear cap es =>
    simp only [wp_map]
    refine wp_of_returns (linearNewEntry_spec wf hs hmax) ?_
    rintro i hv' ⟨hkept, hfresh⟩
    exact ⟨.dropped hkept slot, hfresh⟩
  | indexed oa => exact oaNewEntry_fresh wf hs hmax slot

/-! The state with the new entry in place. -/

theorem Fresh.first_none (h : Fresh cfg hv i) : hv.hvEntryFirst i = none := by
  unfold Fresh at h
  cases hs : hv.storage with
  | unallocated n => simp [hs] at h
  | linear cap es =>
    simp only [hs] at h
    rw [hvEntryFirst_linear hs, h.1]
    simp
  | indexed oa =>
    simp only [hs] at h
    rw [hvEntryFirst_indexed hs, h.2.1]
    rfl

theorem Fresh.limit (h : Fresh cfg hv i) : hv.hvEntryLimit = i ∨ hv.hvEntryLimit = i + 1 := by
  unfold Fresh at h
  cases hs : hv.storage with
  | unallocated n => simp [hs] at h
  | linear cap es =>
    simp only [hs] at h
    rw [HV.hvEntryLimit, entries_linear hs]
    exact Or.inl h.1.symm
  | indexed oa =>
    simp only [hs] at h
    rw [HV.hvEntryLimit, entries_indexed hs]
    exact Or.inr h.1

theorem Fresh.not_current (h : Fresh cfg hv i) (wf : WF cfg hv) : hv.isCurrent i = false := by
  by_contra hcon
  have heit := isCurrent_iff.mp (by simpa using hcon : hv.isCurrent i = true)
  have hnone := h.first_none
  cases hl : hv.lazydel with
  | false =>
    have := wf.cursor.slot i heit hl
    simp [hnone] at this
  | true =>
    have hp : hv.pendingHek.isSome = true := wf.view.pending.trans hl
    have hlt := eiter_lt wf heit
    unfold Fresh at h
    cases hs : hv.storage with
    | unallocated n => simp [hs] at h
    | linear cap es =>
      simp only [hs] at h
      rw [entries_linear hs] at hlt
      omega
    | indexed oa =>
      simp only [hs] at h
      simp [HV.pendingHek, hl, HV.current, heit, entries_indexed hs, h.2.1, HE.vacant] at hp

/-- What an insertion leaves behind: the new entry, and everything else as before. -/
structure Inserted (hv : HV V) (i : Nat) (he : HE V) (hv' : HV V) : Prop where
  first : ∀ j, hv'.hvEntryFirst j = if j = i then some he else hv.hvEntryFirst j
  limit : hv'.hvEntryLimit = i + 1
  entries : ∀ j ≠ i, hv'.entries[j]? = hv.entries[j]?
  lazydel : hv'.lazydel = hv.lazydel
  riter : hv'.riter = hv.riter
  eiter : hv'.eiter = hv.eiter

namespace Inserted

variable (h : Inserted hv i he hv')
include h

theorem live (hf : Fresh cfg hv i) : hv'.live = hv.live ++ [he] := by
  have hnone := hf.first_none
  have hold : hv.live = ((List.range i).map hv.hvEntryFirst).reduceOption := by
    unfold HV.live HV.slots
    rcases hf.limit with hlim | hlim
    · rw [hlim]
    · rw [hlim, List.range_succ, List.map_append, List.reduceOption_append]
      simp [hnone, List.reduceOption_cons_of_none]
  rw [hold, HV.live, HV.slots, h.limit, List.range_succ, List.map_append, List.reduceOption_append]
  congr 2
  · refine List.map_congr_left fun j hj => ?_
    rw [h.first, if_neg (by have := List.mem_range.mp hj; omega)]
  · simp [h.first, List.reduceOption_cons_of_some]

theorem current (wf : WF cfg hv) (hf : Fresh cfg hv i) : hv'.current = hv.current := by
  refine current_eq_of h.eiter fun j hj => h.entries j ?_
  rintro rfl
  have := hf.not_current wf
  simp [isCurrent_iff.mpr hj] at this

theorem cursorOk (wf : WF cfg hv) : CursorOk hv' := by
  refine ⟨h.riter ▸ wf.cursor.riter, fun j hj hl => ?_, fun r hr => ?_⟩
  · rw [h.first]
    split
    · rfl
    · exact wf.cursor.slot j (h.eiter ▸ hj) (h.lazydel ▸ hl)
  · rw [h.lazydel]
    exact wf.cursor.retired r (h.eiter ▸ hr)

theorem view (wf : WF cfg hv) (hf : Fresh cfg hv i) :
    hv'.view = { hv.view with
      live := hv.live ++ [he], keys := hv'.keys, placeholders := hv'.placeholders,
      readonly := hv'.readonly, hasKFlags := hv'.hasKFlags, shareKeys := hv'.shareKeys,
      freed := hv'.freed, nextRef := hv'.nextRef } := by
  simp only [HV.view, h.live hf, HV.currentId, HV.pendingHek, h.current wf hf, h.lazydel]

end Inserted

theorem inserted_linear (wf : WF cfg hv)
    (hs : hv.storage = .linear cap es) (hs' : hv'.storage = .linear cap (es ++ [he]))
    (hl : hv'.lazydel = hv.lazydel) (hr : hv'.riter = hv.riter) (he' : hv'.eiter = hv.eiter)
    (hf : Fresh cfg hv i) (hhek : he.hek = some hek) :
    Inserted hv i he hv' ∧ StorageOk cfg hv' := by
  have hst := wf.storage
  simp only [StorageOk, hs] at hst
  simp only [Fresh, hs] at hf
  obtain ⟨rfl, hcap⟩ := hf
  have hget : ∀ j, (es ++ [he])[j]? = if j = es.length then some he else es[j]? := by
    intro j
    rw [List.getElem?_append]
    split_ifs with h1 h2 h2
    · omega
    · rfl
    · simp [h2]
    · rw [List.getElem?_eq_none (l := es) (by omega), List.getElem?_eq_none (by simp only [List.length_singleton]; omega)]
  refine ⟨⟨fun j => ?_, ?_, fun j hj => ?_, hl, hr, he'⟩, ?_⟩
  · rw [hvEntryFirst_linear hs', hvEntryFirst_linear hs, hget]
  · rw [HV.hvEntryLimit, entries_linear hs']
    simp
  · rw [entries_linear hs', entries_linear hs, hget, if_neg hj]
  · simp only [StorageOk, hs']
    refine ⟨hst.1, by simp only [List.length_append, List.length_singleton]; omega, hst.2.2.1, fun x hx => ?_, hl.trans hst.2.2.2.2⟩
    rcases List.mem_append.mp hx with hx | hx
    · exact hst.2.2.2.1 x hx
    · rw [List.mem_singleton.mp hx, hhek]
      rfl

theorem Sized.set {build : Build} (h : Sized build oa) (i : Nat) (he : HE V) :
    Sized build { oa with entries := oa.entries.set i he } := by
  have hused : ({ oa with entries := oa.entries.set i he } : OA V).used = oa.used := by
    simp [OA.used]
  obtain ⟨h1, h2, h3, h4, h5⟩ := h
  exact ⟨h1, h2, h3, by rw [hused]; exact h4, fun hb => by rw [hused]; exact h5 hb⟩

theorem inserted_indexed (wf : WF cfg hv) {oa₁ oa' : OA V} (hs : hv.storage = .indexed oa)
    (hs' : hv'.storage = .indexed oa') (hoa₁ : oa₁ = { oa with entries := oa.entries.set i he })
    (hl : hv'.lazydel = hv.lazydel) (hr : hv'.riter = hv.riter) (he' : hv'.eiter = hv.eiter)
    (hf : Fresh cfg hv i) (hhek : he.hek = some hek) (hk : hv'.keys = hv.keys + 1)
    (hx : IndexOk cfg.build oa'
      (Function.update (hv.homeOf oa) i (some (bucketOf hek.hash oa.buckets))))
    (hshape : SameShape oa₁ oa') (htomb : oa'.tombstones ≤ oa.tombstones) :
    Inserted hv i he hv' ∧ StorageOk cfg hv' := by
  subst hoa₁
  have hnc := hf.not_current wf
  have hnone := hf.first_none
  simp only [Fresh, hs] at hf
  obtain ⟨hused, hvac, hload⟩ := hf
  have hes : oa'.entries = oa.entries.set i he := hshape.entries
  have hlt : i < oa.entries.length := by
    unfold OA.used at hused
    omega
  have hcur : hv'.isCurrent = hv.isCurrent := by
    funext j
    rw [HV.isCurrent, he']
    rfl
  have hfirst : ∀ j, hv'.hvEntryFirst j = if j = i then some he else hv.hvEntryFirst j := by
    intro j
    rw [hvEntryFirst_indexed hs', hvEntryFirst_indexed hs, hes, hl, hcur, List.getElem?_set]
    by_cases hj : i = j
    · subst hj
      simp [hlt, hnc, hhek, Option.filter]
    · simp [hj, Ne.symm hj]
  refine ⟨⟨hfirst, ?_, fun j hj => ?_, hl, hr, he'⟩, ?_⟩
  · rw [HV.hvEntryLimit, entries_indexed hs', hes, List.length_set]
    exact hused
  · rw [entries_indexed hs', entries_indexed hs, hes, List.getElem?_set, if_neg (Ne.symm hj)]
  · have hix := wf.indexed hs
    simp only [StorageOk, hs']
    refine ⟨?_, ?_, ?_⟩
    · exact (hix.sized.set i he).of_shape hshape
    · convert hx using 1
      funext j
      have hbk : oa'.buckets = oa.buckets := hshape.buckets
      by_cases hj : j = i
      · subst hj
        simp [HV.homeOf, hfirst, hhek, hbk]
      · simp only [HV.homeOf, hfirst, if_neg hj, hbk, Function.update_of_ne hj]
    · have hbk : oa'.buckets = oa.buckets := hshape.buckets
      rw [hbk]
      unfold indexLoad at hload ⊢
      rw [hk]
      cases hb : cfg.build <;> simp only [hb] at hload ⊢ <;> omega

theorem wp_newHek {Q : HEK → HV V → Prop} {E : PerlError → HV V → Prop} :
    wp (newHek q) hv Q E ↔
      (hv.shareKeys = true ∧ q.octets.length > i32Max → E .keyLengthOutOfRange hv) ∧
      (¬(hv.shareKeys = true ∧ q.octets.length > i32Max) →
        Q (q.stored.hek (!hv.shareKeys) hv.nextRef) { hv with nextRef := hv.nextRef + 1 }) := by
  unfold newHek shareHekFlags saveHekFlags
  cases hs : hv.shareKeys with
  | true => simp [hs, Query.stored, StoredKey.hek, Query.id]
  | false => simp [hs, Query.stored, StoredKey.hek, Query.id]

theorem indexNewEntry_spec {build : Build} {home : Nat → Option Nat} {hash : UInt32}
    (hs : hv.storage = .indexed oa) (hsz : Sized build oa) (hx : IndexOk build oa home)
    (hi : i < oa.used) (hhi : home i = none)
    (hroom : build = .oa → ∃ p : Nat, (oaCells oa)[p]? = some .empty)
    (hsaved : ∀ pos, slot = some pos →
      ProbeTable.freeSlot (oaCells oa) (bucketOf hash oa.buckets) = some pos) :
    returns (indexNewEntry build i hash slot) hv fun _ hv' =>
      ∃ oa', hv' = { hv with storage := .indexed oa' } ∧
        IndexOk build oa' (Function.update home i (some (bucketOf hash oa.buckets))) ∧
        SameShape oa oa' ∧ oa'.tombstones ≤ oa.tombstones := by
  have hfresh : returns (onOA (oaIndexInsert build i hash)) hv fun _ hv' =>
      ∃ oa', hv' = { hv with storage := .indexed oa' } ∧
        IndexOk build oa' (Function.update home i (some (bucketOf hash oa.buckets))) ∧
        SameShape oa oa' ∧ oa'.tombstones ≤ oa.tombstones := by
    rw [returns, wp_onOA hs]
    exact wp_of_returns (oaIndexInsert_spec hsz hx hi hhi hroom) fun _ oa' h => ⟨oa', rfl, h⟩
  simp only [indexNewEntry, returns, wp_bind, wp_get, hs]
  cases build with
  | chains => exact hfresh
  | oa =>
    cases slot with
    | none => exact hfresh
    | some pos =>
      dsimp only
      rw [wp_onOA hs]
      exact wp_of_returns (slotsOk_put hsz hx (bucketOf_lt hsz.buckets hash) hi hhi (hsaved pos rfl))
        fun _ oa' h => ⟨oa', rfl, h⟩

theorem Fresh.putNew_indexed (hf : Fresh cfg hv i) (hs : hv.storage = .indexed oa)
    (next : Nat) (he : HE V) :
    ({ hv with nextRef := next } : HV V).putNew i he =
      { hv with nextRef := next, storage := .indexed { oa with entries := oa.entries.set i he } } := by
  have hused : oa.used = i + 1 := by
    simp only [Fresh, hs] at hf
    exact hf.1
  have hlt : i < oa.entries.length := by
    unfold OA.used at hused
    omega
  simp [HV.putNew, HV.withEntries, HV.entries, hs, Storage.withEntries, hlt]

theorem placeEntry_spec (wf : WF cfg hv) (hf : Fresh cfg hv i) {val : HeVal V}
    (hhek : hek.id = q.id) (hsaved : SavedSlot cfg.build hv q.hash slot) (next : Nat) :
    returns (indexNewEntry cfg.build i q.hash slot)
        (({ hv with nextRef := next } : HV V).putNew i ⟨some hek, val⟩) fun _ hv' =>
      ∃ st, hv' = { hv with nextRef := next, storage := st } ∧
        ∀ hv'' : HV V, hv''.storage = st →
        hv''.lazydel = hv.lazydel → hv''.riter = hv.riter → hv''.eiter = hv.eiter →
        hv''.keys = hv.keys + 1 →
        Inserted hv i ⟨some hek, val⟩ hv'' ∧ StorageOk cfg hv'' := by
  cases hs : hv.storage with
  | unallocated n => simp [Fresh, hs] at hf
  | linear cap es =>
    have hput : ({ hv with nextRef := next } : HV V).putNew i ⟨some hek, val⟩ =
        { hv with nextRef := next, storage := .linear cap (es ++ [⟨some hek, val⟩]) } := by
      have hi : i = es.length := by
        have := hf
        simp only [Fresh, hs] at this
        exact this.1
      simp [HV.putNew, HV.withEntries, HV.entries, hs, Storage.withEntries, hi]
    rw [← hs, hput]
    simp only [indexNewEntry, returns, wp_bind, wp_get, wp_pure]
    refine ⟨_, rfl, fun hv'' h1 h2 h3 h4 _ => ?_⟩
    exact inserted_linear wf hs h1 h2 h3 h4 hf rfl
  | indexed oa =>
    have hx := wf.indexed hs
    have hused : oa.used = i + 1 := by
      have := hf
      simp only [Fresh, hs] at this
      exact this.1
    have hput := hf.putNew_indexed hs next ⟨some hek, val⟩
    have hsz := hx.sized.set i ⟨some hek, val⟩
    have hused₁ : ({ oa with entries := oa.entries.set i ⟨some hek, val⟩ } : OA V).used = oa.used := by
      simp [OA.used]
    rw [← hs, hput]
    refine wp_of_returns (indexNewEntry_spec rfl hsz (hx.index.withEntries _) (by omega) ?_
      (fun hb => (wf.room hs hb :)) fun pos hpos => ?_) ?_
    · simp [HV.homeOf, hf.first_none]
    · obtain ⟨oa', ho, hb, hfree⟩ := hsaved pos hpos
      obtain rfl : oa = oa' := by simpa [hs] using ho
      exact hfree
    · rintro - hv' ⟨oa', rfl, hx', hshape, htomb⟩
      refine ⟨_, rfl, fun hv'' h1 h2 h3 h4 h5 => ?_⟩
      have hhash : hek.hash = q.hash := congrArg KeyId.hash hhek
      exact inserted_indexed wf hs h1 rfl h2 h3 h4 hf rfl h5 (by rw [hhash]; exact hx') hshape htomb

/-- What counting a new entry changes. -/
structure Counted (q : Query) (val : HeVal V) (hv hv' : HV V) : Prop where
  storage : hv'.storage = hv.storage
  keys : hv'.keys = hv.keys + 1
  lazydel : hv'.lazydel = hv.lazydel
  riter : hv'.riter = hv.riter
  eiter : hv'.eiter = hv.eiter
  placeholders : hv'.placeholders =
    if val.isPlaceholder then some (hv.placeholders.getD 0 + 1) else hv.placeholders
  readonly : hv'.readonly = hv.readonly
  hasKFlags : hv'.hasKFlags = (hv.hasKFlags || q.stored.flagged)
  shareKeys : hv'.shareKeys = hv.shareKeys
  freed : hv'.freed = hv.freed
  nextRef : hv'.nextRef = hv.nextRef

theorem countNewEntry_spec (q : Query) (val : HeVal V) (hv : HV V) :
    returns (countNewEntry q val) hv fun _ hv' => Counted q val hv hv' := by
  have hriter : ∀ f : Aux V → Bool, (hv.modifyAux fun a => { a with iterInserted := f a }).riter =
      hv.riter := fun f => by cases h : hv.aux <;> simp [HV.riter, HV.modifyAux, h]
  have heiter : ∀ f : Aux V → Bool, (hv.modifyAux fun a => { a with iterInserted := f a }).eiter =
      hv.eiter := fun f => by cases h : hv.aux <;> simp [HV.eiter, HV.modifyAux, h]
  simp only [countNewEntry, returns, wp_bind, wp_modify, noteKFlags]
  cases hp : val.isPlaceholder with
  | true =>
    simp only [if_true]
    exact ⟨rfl, rfl, rfl, hriter _, heiter _, by simp [HV.addPlaceholders, HV.hvPlaceholdersGet, HV.modifyAux, *], rfl, rfl, rfl, rfl, rfl⟩
  | false =>
    simp only [Bool.false_eq_true, if_false]
    exact ⟨rfl, rfl, rfl, hriter _, heiter _, by simp [HV.modifyAux, *], rfl, rfl, rfl, rfl, rfl⟩

theorem insertEntry_spec (wf : WF cfg hv) (hnew : hv.view.find q.id = none)
    (hmax : hv.keys < hvMaxKeys) (hsaved : SavedSlot cfg.build hv q.hash slot) (val : HeVal V) :
    Simulates (Shows cfg) (fun _ _ => True) (insertEntry cfg q val slot)
      (View.insert q.stored val) hv hv.view := by
  unfold insertEntry
  refine .step (wp_of_returns (allocateArray_spec wf slot) ?_)
  rintro - hv₁ ⟨hroom₁, hform₁, -⟩
  have hk₁ := hroom₁.kept.keys
  refine .step (wp_of_returns (newEntry_spec hroom₁.kept.wf hform₁ (by omega) slot) ?_)
  rintro ⟨i, slot'⟩ hv₂ ⟨hroom₂, hfresh⟩
  have hroom := hroom₁.trans hroom₂
  have wf₂ := hroom.kept.wf
  rw [← hroom.kept.view] at hnew ⊢
  have hshare : hv₂.view.shareKeys = hv₂.shareKeys := rfl
  have hnext : hv₂.view.nextRef = hv₂.nextRef := rfl
  have hlen : q.stored.id.key = q.octets := rfl
  simp only [Simulates, returns, View.insert, wp_bind, wp_get, wp_newHek, wp_modify, wp_throwIf,
    wp_set, wp_pure, hshare, hnext, hlen]
  refine ⟨fun hlong => ⟨fun _ => ⟨trivial, wf₂, rfl⟩, fun h => absurd hlong h⟩, fun hshort => ?_⟩
  set hek := q.stored.hek (!hv₂.shareKeys) hv₂.nextRef with hhek
  refine wp_of_returns (placeEntry_spec wf₂ hfresh rfl (hroom.saved _ hsaved) _) ?_
  rintro - hv₃ ⟨st, rfl, hplaced⟩
  refine wp_of_returns (countNewEntry_spec q val _) ?_
  intro _ hv₄ hc
  obtain ⟨hins, hst⟩ := hplaced hv₄ hc.storage hc.lazydel hc.riter hc.eiter hc.keys
  have hview := hins.view wf₂ hfresh
  rw [hc.keys, hc.placeholders, hc.readonly, hc.hasKFlags, hc.shareKeys, hc.freed, hc.nextRef] at hview
  have hok := wf₂.view.insert (rfl : (⟨some hek, val⟩ : HE V).hek = some hek) hnew rfl
  refine ⟨trivial, fun h => absurd h hshort, fun _ => ⟨trivial, ⟨hst, hins.cursorOk wf₂, ?_⟩, hview⟩⟩
  rw [hview]
  exact ⟨hok.heks, hok.keys, hok.distinct, hok.pending, hok.refs⟩

end XPerl.Hash
