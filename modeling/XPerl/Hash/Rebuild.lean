import XPerl.Hash.Invariant

/-! Rebuilding the index keeps the view and the cursor. -/

namespace XPerl.Hash

open XPerl.Framework XPerl.Framework.Exec

variable {V : Type} {cfg : Config} {build : Build} {hv : HV V}

/-- The entry pointer once the first `k` positions are packed. -/
def packedEiter (hv : HV V) (k : Nat) : Option (EIter V) :=
  match hv.eiter with
  | some (.slot i) =>
    if i < k then
      if hv.lazydel then hv.entries[i]?.map .retired
      else some (.slot (hv.slots.take i).reduceOption.length)
    else some (.slot i)
  | e => e

variable {i : Nat} {he : HE V} {oa : OA V}

theorem WF.first_of_entry (wf : WF cfg hv) (h : hv.entries[i]? = some he) :
    hv.hvEntryFirst i =
      if hv.lazydel && hv.isCurrent i then none else if he.hek.isSome then some he else none := by
  have hst := wf.storage
  cases hs : hv.storage with
  | unallocated n => rw [entries_unallocated hs] at h; simp at h
  | linear cap es =>
    simp only [StorageOk, hs] at hst
    obtain ⟨-, -, -, hhek, hlazy⟩ := hst
    rw [entries_linear hs] at h
    rw [hvEntryFirst_linear hs, h, hlazy]
    simp [hhek he (List.mem_of_getElem? h)]
  | indexed oa =>
    rw [entries_indexed hs] at h
    rw [hvEntryFirst_indexed hs, h]
    by_cases hr : (hv.lazydel && hv.isCurrent i) = true
    · simp [hr]
    · simp [hr, Option.filter]

theorem take_succ_reduceOption (hi : i < hv.hvEntryLimit) :
    (hv.slots.take (i + 1)).reduceOption =
      (hv.slots.take i).reduceOption ++ (hv.hvEntryFirst i).toList := by
  rw [List.take_add_one, List.reduceOption_append, slots_getElem?, if_pos hi]
  cases hv.hvEntryFirst i <;> rfl

theorem packedEiter_succ (hi : hv.entries[i]? = some he) :
    packedEiter hv (i + 1) =
      if hv.isCurrent i then
        if hv.lazydel then some (.retired he)
        else some (.slot (hv.slots.take i).reduceOption.length)
      else packedEiter hv i := by
  by_cases hcur : hv.isCurrent i = true
  · rw [if_pos hcur]
    simp [packedEiter, isCurrent_iff.mp hcur, hi]
  · rw [if_neg hcur]
    rw [isCurrent_iff] at hcur
    unfold packedEiter
    cases heit : hv.eiter with
    | none => rfl
    | some e =>
      cases e with
      | retired he' => rfl
      | slot j =>
        have hne : j ≠ i := by
          rintro rfl
          exact hcur heit
        by_cases hlt : j < i
        · simp only [if_pos hlt, if_pos (show j < i + 1 by omega)]
        · simp only [if_neg hlt, if_neg (show ¬j < i + 1 by omega)]

theorem packEntry_spec (wf : WF cfg hv) {p : Packed V}
    (hi : hv.entries[i]? = some he) (heit : p.eiter = packedEiter hv i)
    (hes : p.entries = (hv.slots.take i).reduceOption) :
    (packEntry hv p i he).entries = (hv.slots.take (i + 1)).reduceOption ∧
      (packEntry hv p i he).eiter = packedEiter hv (i + 1) ∧
      (packEntry hv p i he).riter = if 0 ≤ hv.riter ∧ (i : Int) ≤ hv.riter then
        ((hv.slots.take (i + 1)).reduceOption.length : Int) - 1 else p.riter := by
  have hlim : i < hv.hvEntryLimit := (List.getElem?_eq_some_iff.mp hi).1
  have hfirst := wf.first_of_entry hi
  have hslot := wf.cursor.slot i
  rw [take_succ_reduceOption hlim, packedEiter_succ hi, ← hes, ← heit]
  have hpast : (packEntry hv p i he).entries =
        (if hv.lazydel && hv.isCurrent i then p.entries
          else if he.hek.isSome then p.entries ++ [he] else p.entries) ∧
      (packEntry hv p i he).eiter =
        (if hv.lazydel && hv.isCurrent i then some (.retired he)
          else if he.hek.isSome && hv.isCurrent i then some (.slot p.entries.length)
          else p.eiter) ∧
      (packEntry hv p i he).riter = if 0 ≤ hv.riter ∧ (i : Int) ≤ hv.riter then
        ((packEntry hv p i he).entries.length : Int) - 1 else p.riter := by
    unfold packEntry
    split_ifs <;> simp_all
  obtain ⟨h1, h2, h3⟩ := hpast
  rw [h3, h2, h1]
  by_cases hret : (hv.lazydel && hv.isCurrent i) = true
  · obtain ⟨hlz, hic⟩ := Bool.and_eq_true_iff.mp hret
    simp [hlz, hic, hfirst]
  · rw [if_neg hret] at hfirst
    by_cases hhek : he.hek.isSome = true
    · rw [if_pos hhek] at hfirst
      cases hic : hv.isCurrent i <;> simp_all
    · rw [if_neg hhek] at hfirst
      have hic : hv.isCurrent i = false := by
        by_contra hcon
        have hcon : hv.isCurrent i = true := by simpa using hcon
        have := hslot (isCurrent_iff.mp hcon) (by simpa [hcon] using hret)
        simp [hfirst] at this
      simp [hic, hhek, hfirst]

theorem packEntries_spec (wf : WF cfg hv) :
    (packEntries hv).entries = hv.live ∧
      (packEntries hv).eiter = packedEiter hv hv.entries.length ∧
      (packEntries hv).riter =
        (hv.slots.take (hv.riter + 1).toNat).reduceOption.length - 1 := by
  have hr := wf.cursor.riter
  have hmain := SparseList.foldl_zipIdx (l := hv.entries)
    (f := fun p e => packEntry hv p e.2 e.1) (b := ⟨[], hv.eiter, -1⟩)
    (fun k p => p.entries = (hv.slots.take k).reduceOption ∧ p.eiter = packedEiter hv k ∧
      p.riter = (hv.slots.take (min k (hv.riter + 1).toNat)).reduceOption.length - 1)
    (by
      refine ⟨by simp, ?_, by simp⟩
      unfold packedEiter
      split <;> simp_all)
    (by
      rintro i he p hi ⟨hes, heit, hrit⟩
      obtain ⟨h1, h2, h3⟩ := packEntry_spec wf hi heit hes
      refine ⟨h1, h2, h3.trans ?_⟩
      split
      · rename_i hc
        rw [Nat.min_eq_left (by omega)]
      · rename_i hc
        have hmin : min i (hv.riter + 1).toNat = min (i + 1) (hv.riter + 1).toNat := by omega
        rw [hrit, hmin])
  obtain ⟨h1, h2, h3⟩ := hmain
  have hlen : hv.entries.length = hv.slots.length := slots_length.symm
  refine ⟨?_, h2, ?_⟩
  · rw [HV.live, packEntries, h1, hlen, List.take_length]
  · rw [packEntries, h3, hlen]
    congr 3
    rcases Nat.le_total hv.slots.length (hv.riter + 1).toNat with hle | hle
    · rw [Nat.min_eq_left hle, List.take_length, List.take_of_length_le hle]
    · rw [Nat.min_eq_right hle]

theorem withStorage_spec (st : Storage V)
    (hes : ({ hv with storage := st } : HV V).entries = hv.entries)
    (hf : ({ hv with storage := st } : HV V).hvEntryFirst = hv.hvEntryFirst) :
    let hv' : HV V := { hv with storage := st }
    hv'.view = hv.view ∧ hv'.cursor = hv.cursor ∧ (CursorOk hv → CursorOk hv') := by
  intro hv'
  have hslots : hv'.slots = hv.slots :=
    slots_eq_of (by rw [HV.hvEntryLimit, hes]; rfl) fun i _ => by rw [hf]
  have hcurrent : hv'.current = hv.current := current_eq_of rfl fun i _ => by rw [hes]
  refine ⟨?_, ?_, fun hc => ⟨hc.riter, ?_, hc.retired⟩⟩
  · unfold HV.view HV.live HV.pendingHek HV.currentId
    rw [hslots, hcurrent]
  · unfold HV.cursor HV.unvisited
    rw [hslots]
    rfl
  · rw [hf]
    exact hc.slot

theorem first_of_indexing (wf : WF cfg hv) (hes : oa.entries = hv.entries) :
    ({ hv with storage := .indexed oa } : HV V).hvEntryFirst = hv.hvEntryFirst := by
  funext i
  have hst : ({ hv with storage := .indexed oa } : HV V).storage = .indexed oa := rfl
  rw [hvEntryFirst_indexed hst, hes]
  cases hi : hv.entries[i]? with
  | none =>
    cases hf : hv.hvEntryFirst i with
    | none => rfl
    | some he => rw [entry_of_first hf] at hi; simp at hi
  | some he =>
    rw [wf.first_of_entry hi]
    show Option.filter (fun he : HE V => he.hek.isSome && !(hv.lazydel && hv.isCurrent i)) _ = _
    by_cases hret : (hv.lazydel && hv.isCurrent i) = true
    · simp [hret, Option.filter]
    · simp [hret, Option.filter]

theorem eiter_lt (wf : WF cfg hv) (h : hv.eiter = some (.slot i)) :
    i < hv.entries.length := by
  cases hlz : hv.lazydel with
  | false =>
    obtain ⟨he, hf⟩ := Option.isSome_iff_exists.mp (wf.cursor.slot i h hlz)
    exact lt_of_first hf
  | true =>
    have hp : hv.pendingHek.isSome = true := by
      have := wf.view.pending
      exact this.trans hlz
    by_contra hge
    simp [HV.pendingHek, hlz, HV.current, h, List.getElem?_eq_none (Nat.le_of_not_lt hge)] at hp

theorem live_at (h : hv.hvEntryFirst i = some he) :
    hv.live[(hv.slots.take i).reduceOption.length]? = some he := by
  have hdrop := SparseList.drop_reduceOption hv.slots i
  have hslot := slots_of_first h
  obtain ⟨hlt, hget⟩ := List.getElem?_eq_some_iff.mp hslot
  rw [List.drop_eq_getElem_cons hlt, hget, List.reduceOption_cons_of_some] at hdrop
  have := congrArg (·[0]?) hdrop
  simpa [HV.live] using this

theorem compacted_entries (wf : WF cfg hv) : (compacted hv).entries = (packEntries hv).entries := by
  refine entries_withEntries fun n hs => ?_
  have hlive : hv.live = [] := by
    simp [HV.live, HV.slots, HV.hvEntryLimit, entries_unallocated hs]
  exact (packEntries_spec wf).1.trans hlive

theorem compacted_spec (wf : WF cfg hv) (capacity entryCapacity : Nat) :
    let hv' := reallocated build (compacted hv) capacity entryCapacity
    hv'.entries = hv.live ∧ hv'.view = hv.view ∧ hv'.cursor = hv.cursor ∧ CursorOk hv' := by
  intro hv'
  obtain ⟨hpe, hpi, hpr⟩ := packEntries_spec wf
  have hentries : hv'.entries = hv.live := (compacted_entries wf).trans hpe
  have haux : hv'.aux = hv.aux.map fun a => { a with
      eiter := (packEntries hv).eiter, riter := (packEntries hv).riter,
      iterActive := a.iterActive || decide (0 ≤ hv.riter) } := rfl
  have hlz : hv'.lazydel = hv.lazydel := rfl
  have heiter : hv'.eiter = packedEiter hv hv.entries.length := by
    unfold HV.eiter
    rw [haux]
    cases ha : hv.aux with
    | none => simp [packedEiter, HV.eiter, ha]
    | some a => simp [hpi]
  have hriter : hv'.riter = (hv.slots.take (hv.riter + 1).toNat).reduceOption.length - 1 := by
    unfold HV.riter
    rw [haux]
    cases ha : hv.aux with
    | none => simp
    | some a => simp [hpr, HV.riter, ha]
  have hnocur : hv.lazydel = true → ∀ i, hv'.isCurrent i = false := by
    intro hl i
    by_contra hcon
    have hcon := isCurrent_iff.mp (by simpa using hcon : hv'.isCurrent i = true)
    rw [heiter, packedEiter] at hcon
    cases heit : hv.eiter with
    | none => simp [heit] at hcon
    | some e =>
      cases e with
      | retired he => simp [heit] at hcon
      | slot j =>
        have hlt := eiter_lt wf heit
        simp [heit, hlt, hl] at hcon
  have hfirst : ∀ i, hv'.hvEntryFirst i = hv.live[i]? := by
    intro i
    obtain ⟨oa, hst, hoa⟩ : ∃ oa, hv'.storage = .indexed oa ∧ oa.entries = hv'.entries :=
      ⟨_, rfl, rfl⟩
    rw [hvEntryFirst_indexed hst, hoa, hentries]
    cases hi : hv.live[i]? with
    | none => rfl
    | some he =>
      have hhek := wf.view.heks he (List.mem_of_getElem? hi)
      have hmask : (hv'.lazydel && hv'.isCurrent i) = false := by
        rw [hlz]
        cases hl : hv.lazydel with
        | false => rfl
        | true => simpa using hnocur hl i
      simp [Option.filter, hhek, hmask]
  have hslots : hv'.slots = hv.live.map some := by
    apply List.ext_getElem?
    intro i
    rw [slots_getElem?, hfirst, HV.hvEntryLimit, hentries, List.getElem?_map]
    split
    · rename_i hi
      simp [List.getElem?_eq_getElem hi]
    · rename_i hi
      simp [List.getElem?_eq_none (Nat.le_of_not_lt hi)]
  have hred : ∀ l : List (HE V), (l.map some).reduceOption = l := by
    intro l
    simp [List.reduceOption]
  have hlive : hv'.live = hv.live := by rw [HV.live, hslots, hred]
  have hcurrent : hv'.current = hv.current := by
    unfold HV.current
    rw [heiter, packedEiter]
    cases heit : hv.eiter with
    | none => rfl
    | some e =>
      cases e with
      | retired he => rfl
      | slot j =>
        have hlt := eiter_lt wf heit
        cases hl : hv.lazydel with
        | true => simp [hlt]
        | false =>
          obtain ⟨he, hj⟩ := Option.isSome_iff_exists.mp (wf.cursor.slot j heit hl)
          simp only [hlt, if_true, Bool.false_eq_true, if_false]
          rw [entry_of_first hj]
          exact (congrArg (·[_]?) hentries).trans (live_at hj)
  refine ⟨hentries, ?_, ?_, ⟨?_, fun i hi hl => ?_, fun he hi => ?_⟩⟩
  · simp only [HV.view, HV.pendingHek, HV.currentId, hlive, hcurrent, hlz]
    rfl
  · have hunv : hv'.unvisited = hv.unvisited := by
      unfold HV.unvisited
      rw [hslots, hriter, ← List.map_drop, hred]
      rw [show (((hv.slots.take (hv.riter + 1).toNat).reduceOption.length : Int) - 1 + 1).toNat =
        (hv.slots.take (hv.riter + 1).toNat).reduceOption.length by omega]
      exact SparseList.drop_reduceOption _ _
    have hins : hv'.aux.any Aux.iterInserted = hv.aux.any Aux.iterInserted := by
      rw [haux]
      cases hv.aux <;> rfl
    have hpres : hv'.aux.isSome = hv.aux.isSome := by
      rw [haux]
      cases hv.aux <;> rfl
    simp only [HV.cursor, hunv, hins, hpres]
  · rw [hriter]
    omega
  · rw [heiter, packedEiter] at hi
    rw [hlz] at hl
    cases heit : hv.eiter with
    | none => simp [heit] at hi
    | some e =>
      cases e with
      | retired he => simp [heit] at hi
      | slot j =>
        have hlt := eiter_lt wf heit
        obtain ⟨he, hj⟩ := Option.isSome_iff_exists.mp (wf.cursor.slot j heit hl)
        simp only [heit, hlt, if_true, hl, Bool.false_eq_true, if_false, Option.some.injEq,
          EIter.slot.injEq] at hi
        rw [hfirst, ← hi, live_at hj]
        rfl
  · rw [hlz]
    rw [heiter, packedEiter] at hi
    cases heit : hv.eiter with
    | none => simp [heit] at hi
    | some e =>
      cases e with
      | retired he' => exact wf.cursor.retired he' heit
      | slot j =>
        by_contra hl
        simp only [heit] at hi
        split at hi
        · simp at hi
        · simp at hi

theorem first_of_sameEntries {oa' : OA V} (h : hv.storage = .indexed oa)
    (hes : oa'.entries = oa.entries) :
    ({ hv with storage := .indexed oa' } : HV V).hvEntryFirst = hv.hvEntryFirst := by
  funext i
  have h' : ({ hv with storage := .indexed oa' } : HV V).storage = .indexed oa' := rfl
  rw [hvEntryFirst_indexed h', hvEntryFirst_indexed h, hes]
  rfl

theorem reindex_spec (h : hv.storage = .indexed oa) (hs : Sized build oa)
    (hx : IndexOk build oa fun _ => none) (ht : oa.tombstones = 0)
    (hheks : ∀ i he, hv.hvEntryFirst i = some he → he.hek.isSome = true)
    (hload : hv.live.length < oa.buckets) :
    returns ((List.range hv.entries.length).forM (reindexEntry build)) hv fun _ hv' =>
      ∃ oa', hv' = { hv with storage := .indexed oa' } ∧ SameShape oa oa' ∧
        IndexOk build oa' (hv.homeOf oa) ∧ oa'.tombstones = 0 := by
  have hlen : hv.entries.length = oa.used := by rw [entries_indexed h]; rfl
  refine wp_of_returns (wp_forM_range (fun j t => ∃ oa', t = { hv with storage := .indexed oa' } ∧
    SameShape oa oa' ∧ IndexOk build oa' (fun i => if i < j then hv.homeOf oa i else none) ∧
    oa'.tombstones = 0) ?_ ?_) ?_
  · refine ⟨oa, by rw [← h], ⟨rfl, rfl, rfl⟩, by simpa using hx, ht⟩
  · rintro j hj t ⟨oa', rfl, hshape, hx', ht'⟩
    have hst : ({ hv with storage := .indexed oa' } : HV V).storage = .indexed oa' := rfl
    simp only [reindexEntry, wp_bind, wp_get]
    rw [first_of_sameEntries h hshape.entries]
    cases hf : hv.hvEntryFirst j with
    | none =>
      refine ⟨oa', rfl, hshape, ?_, ht'⟩
      have hhome : hv.homeOf oa j = none := by simp [HV.homeOf, hf]
      convert hx' using 2 with i
      by_cases hij : i = j
      · subst hij
        simp [hhome]
      · exact if_congr (by omega) rfl rfl
    | some he =>
      obtain ⟨hek, hhek⟩ := Option.isSome_iff_exists.mp (hheks j he hf)
      have hs' := hs.of_shape hshape
      simp only [hhek, Option.elim_some]
      rw [wp_onOA hst]
      refine wp_of_returns (oaIndexInsert_spec hs' hx' (i := j) ?_ (by simp) ?_) ?_
      · rw [OA.used, hshape.entries]
        show j < oa.used
        omega
      · rintro rfl
        refine exists_empty_slot hx' (fun i hi => ?_) (by rw [ht', hshape.buckets]; omega)
        have hne : hv.homeOf oa i ≠ none := by
          intro hnone
          simp [hnone] at hi
        obtain ⟨he', -, hf', -⟩ := homeOf_ne_none hne
        simp [hf']
      · rintro - oa'' ⟨hx'', hshape', htomb⟩
        refine ⟨oa'', rfl, ⟨hshape'.entries.trans hshape.entries,
          hshape'.buckets.trans hshape.buckets, hshape'.capacity.trans hshape.capacity⟩, ?_,
          by omega⟩
        convert hx'' using 1
        funext i
        by_cases hij : i = j
        · subst hij
          simp [HV.homeOf, hf, hhek, hshape.buckets]
        · rw [Function.update_of_ne hij]
          exact if_congr (by omega) rfl rfl
  · rintro - t ⟨oa', rfl, hshape, hx', ht'⟩
    refine ⟨oa', rfl, hshape, ?_, ht'⟩
    convert hx' using 1
    funext i
    split
    · rfl
    · rename_i hi
      by_contra hne
      obtain ⟨he, -, hf, -⟩ := homeOf_ne_none hne
      exact hi (lt_of_first hf)

/-- A storage change that only moves things around. -/
structure Kept (cfg : Config) (hv hv' : HV V) : Prop where
  wf : WF cfg hv'
  view : hv'.view = hv.view
  cursor : hv'.cursor = hv.cursor

theorem Kept.refl (wf : WF cfg hv) : Kept cfg hv hv := ⟨wf, rfl, rfl⟩

variable {hv' : HV V} {capacity entryCapacity : Nat} {pack : Bool}

theorem Kept.trans {hv'' : HV V} (h : Kept cfg hv hv') (h' : Kept cfg hv' hv'') :
    Kept cfg hv hv'' := ⟨h'.wf, h'.view.trans h.view, h'.cursor.trans h.cursor⟩

theorem Kept.keys (h : Kept cfg hv hv') : hv'.keys = hv.keys :=
  congrArg View.keys h.view

theorem rebuild_position {used keys : Nat}
    (hv : HV V) (hused : hv.entries.length = used) (hkeys : hv.keys = keys)
    (hk : keys ≤ oaEntryCapacity capacity) (hke : keys ≤ entryCapacity)
    (hmax : entryCapacity ≤ i32Max) (hku : keys ≤ used) :
    let u := if rebuildCompacts .oa hv capacity entryCapacity pack then keys else used
    u ≤ entryCapacity ∧ u + 2 ≤ 256 ^ indexWidthFor .oa capacity := by
  intro u
  have hi : i32Max = 2147483647 := by decide
  unfold oaEntryCapacity at hk
  have hc : rebuildCompacts .oa hv capacity entryCapacity pack = false →
      used = keys ∨ used ≤ entryCapacity ∧ ¬(capacity ≤ 128 ∧ used ≥ 0xFE) ∧
        ¬(capacity ≤ 32768 ∧ used ≥ 0xFFFE) := by
    intro h
    simp only [rebuildCompacts, hused, hkeys, Bool.and_eq_false_imp, Bool.or_eq_false_iff,
      decide_eq_true_eq, decide_eq_false_iff_not, beq_self_eq_true, Bool.true_and] at h
    by_cases hh : used - keys = 0
    · left; omega
    · have := h hh
      right
      omega
  have hu : u = keys ∨ u = used ∧ (used ≤ entryCapacity ∧ ¬(capacity ≤ 128 ∧ used ≥ 0xFE) ∧
      ¬(capacity ≤ 32768 ∧ used ≥ 0xFFFE)) := by
    cases hcc : rebuildCompacts .oa hv capacity entryCapacity pack with
    | true => left; simp [u, hcc]
    | false =>
      rcases hc hcc with h | h
      · left; simp [u, hcc, h]
      · right; exact ⟨by simp [u, hcc], h⟩
  unfold indexWidthFor
  dsimp only
  split_ifs <;> omega

theorem live_length_le (hv : HV V) : hv.live.length ≤ hv.entries.length := by
  have := List.reduceOption_length_le hv.slots
  rwa [slots_length] at this

theorem oaRebuild_spec (wf : WF cfg hv)
    (hb : IsBucketCount capacity) (h4 : 4 ≤ entryCapacity) (hmax : entryCapacity ≤ i32Max)
    (hk : hv.keys ≤ oaEntryCapacity capacity) (hke : hv.keys ≤ entryCapacity) :
    returns (oaRebuild cfg.build capacity entryCapacity pack) hv fun _ hv' =>
      Kept cfg hv hv' ∧ ∃ oa, hv'.storage = .indexed oa ∧ oa.buckets = capacity ∧
        oa.capacity = entryCapacity ∧ oa.tombstones = 0 ∧
        oa.used = if rebuildCompacts cfg.build hv capacity entryCapacity pack then hv.keys
          else hv.entries.length := by
  have hkl := wf.keys_eq
  have hlt := oaEntryCapacity_lt (n := capacity) (by have := hb.ge; omega)
  have hlimit : hv.keys ≤ rebuildKeyLimit cfg.build capacity := by
    cases hbd : cfg.build <;> simp only [rebuildKeyLimit] <;> omega
  simp only [oaRebuild, returns, wp_bind, wp_get, wp_throwIf, wp_set]
  refine ⟨fun h => ?_, fun _ => ⟨fun h => ?_, fun _ => ?_⟩⟩
  · have := hb.le
    have := hb.entryCapacity_le
    omega
  · rw [hvOaSizeValid_of hb hmax] at h
    simp only [Bool.true_eq_false, false_or] at h
    omega
  set compacts := rebuildCompacts cfg.build hv capacity entryCapacity pack with hcdef
  set hv₀ := if compacts then compacted hv else hv with hv₀def
  set hv₁ := reallocated cfg.build hv₀ capacity entryCapacity with hv₁def
  have hprep : hv₁.view = hv.view ∧ hv₁.cursor = hv.cursor ∧ CursorOk hv₁ ∧
      hv₁.entries.length = if compacts then hv.keys else hv.entries.length := by
    cases hc : compacts with
    | true =>
      obtain ⟨h1, h2, h3, h4⟩ := compacted_spec wf capacity entryCapacity
      simp only [hv₁def, hv₀def, hc, if_true]
      exact ⟨h2, h3, h4, by rw [h1, hkl]⟩
    | false =>
      simp only [hv₁def, hv₀def, hc, Bool.false_eq_true, if_false]
      obtain ⟨h2, h3, h4⟩ := withStorage_spec
        (.indexed (clearedIndex cfg.build hv.entries capacity entryCapacity)) rfl
        (first_of_indexing wf rfl)
      exact ⟨h2, h3, h4 wf.cursor, rfl⟩
  obtain ⟨hview, hcursor, hcok, hlen⟩ := hprep
  obtain ⟨oa, hst, hoae, hoab, hoac, hoat, hoai⟩ : ∃ oa, hv₁.storage = .indexed oa ∧
      oa.entries = hv₁.entries ∧ oa.buckets = capacity ∧ oa.capacity = entryCapacity ∧
      oa.tombstones = 0 ∧
      oa.indices = List.replicate (indexCells cfg.build capacity entryCapacity) 0 :=
    ⟨_, rfl, rfl, rfl, rfl, rfl, rfl⟩
  have hvok : hv₁.view.Ok := hview ▸ wf.view
  have hlive : hv₁.live = hv.live := congrArg View.live hview
  have hkeys : hv₁.keys = hv.keys := congrArg View.keys hview
  have hused : oa.used = hv₁.entries.length := by rw [OA.used, hoae]
  have hku : hv.keys ≤ hv.entries.length := hkl ▸ live_length_le hv
  have hsized : Sized cfg.build oa := by
    refine ⟨hoab ▸ hb, by omega, by omega, ?_, fun hbd => ?_⟩
    · rw [hused, hlen, hoac]
      cases hc : compacts with
      | true => simpa using hke
      | false =>
        simp only [Bool.false_eq_true, if_false]
        by_contra hgt
        simp only [hcdef, rebuildCompacts, Bool.and_eq_false_imp, Bool.or_eq_false_iff,
          decide_eq_true_eq, decide_eq_false_iff_not] at hc
        have := hc (by omega)
        omega
    · obtain ⟨-, hpos⟩ := rebuild_position hv rfl
        rfl hk hke hmax hku
      rw [hused, hlen, OA.width, hoab]
      rw [hcdef, hbd]
      exact hpos
  have hheks : ∀ i he, hv₁.hvEntryFirst i = some he → he.hek.isSome = true :=
    fun i he hf => hvok.heks he (mem_live.mpr ⟨i, hf⟩)
  have hempty := indexOk_empty oa (by rw [hoai, hoab, hoac]) hoat
  have hlen₀ : hv₀.entries.length = hv₁.entries.length := rfl
  rw [hlen₀]
  refine wp_of_returns (reindex_spec hst hsized hempty hoat hheks ?_) ?_
  · rw [hlive, ← hkl, hoab]
    omega
  · rintro - hv' ⟨oa', rfl, hshape, hx, htomb⟩
    have hfirst := first_of_sameEntries hst hshape.entries
    obtain ⟨hview', hcursor', hcok'⟩ := withStorage_spec (.indexed oa')
      (hshape.entries.trans hoae) hfirst
    have hused' : oa'.used = oa.used := by rw [OA.used, hshape.entries]; rfl
    refine ⟨⟨⟨?_, hcok' hcok, hview' ▸ hvok⟩, hview'.trans hview, hcursor'.trans hcursor⟩, oa', rfl,
      hshape.buckets.trans hoab, hshape.capacity.trans hoac, htomb, by rw [hused', hused, hlen]⟩
    refine ⟨hsized.of_shape hshape, ?_, ?_⟩
    · convert hx using 1
      funext i
      simp only [HV.homeOf, hfirst, hshape.buckets]
    · have hload : indexLoad cfg.build ({ hv₁ with storage := .indexed oa' } : HV V) oa' = hv.keys := by
        unfold indexLoad
        cases cfg.build <;> simp only [htomb, Nat.add_zero] <;> exact hkeys
      rw [hload, hshape.buckets, hoab]
      exact hk

end XPerl.Hash
