import XPerl.Hash.Rebuild

/-! Making room for one more entry. -/

namespace XPerl.Hash

open XPerl.Framework XPerl.Framework.Exec

variable {V : Type} {cfg : Config} {build : Build} {hv : HV V}

variable {oa : OA V} {capacity : Nat}

theorem WF.keys_le (wf : WF cfg hv) (h : hv.storage = .indexed oa) :
    hv.keys ≤ oaEntryCapacity oa.buckets := by
  have := (wf.indexed h).load
  unfold indexLoad at this
  cases hb : cfg.build <;> simp only [hb] at this <;> omega

theorem resizeEntryCapacity_bounds (wf : WF cfg hv)
    (hb : IsBucketCount capacity) (hk : hv.keys ≤ oaEntryCapacity capacity) :
    4 ≤ resizeEntryCapacity cfg.build hv capacity ∧
      resizeEntryCapacity cfg.build hv capacity ≤ i32Max ∧
      ∀ oa, hv.storage = .indexed oa → oa.capacity ≤ resizeEntryCapacity cfg.build hv capacity := by
  have h8 := hb.ge
  have hmax := hb.entryCapacity_le
  have hmk := hvMaxKeys_eq
  have hi : i32Max = 2147483647 := by decide
  have hcoup : oaCoupledMax = 16384 := rfl
  have hfive : ∀ n, 8 ≤ n → 4 ≤ oaEntryCapacity n := by
    intro n hn
    unfold oaEntryCapacity
    omega
  have hle : ∀ n, oaEntryCapacity n ≤ n := by
    intro n
    unfold oaEntryCapacity
    omega
  cases hs : hv.storage with
  | indexed oa =>
    have hsz := (wf.indexed hs).sized
    have h4 := hsz.four_le
    have hm := hsz.le_max
    cases hbd : cfg.build with
    | chains => simp [resizeEntryCapacity, hs, h4, hm]
    | oa =>
      simp only [resizeEntryCapacity, hs]
      split_ifs with h
      · have := hle capacity
        exact ⟨hfive _ h8, by omega, fun oa' ho => by
          obtain rfl : oa = oa' := by simpa using ho
          omega⟩
      · exact ⟨h4, hm, fun oa' ho => by
          obtain rfl : oa = oa' := by simpa using ho
          exact le_refl _⟩
  | unallocated n =>
    cases hbd : cfg.build with
    | chains => simp only [resizeEntryCapacity, hs]; exact ⟨by omega, by omega, by simp⟩
    | oa =>
      simp only [resizeEntryCapacity, hs]
      have := hle (min capacity oaCoupledMax)
      exact ⟨hfive _ (by omega), by omega, by simp⟩
  | linear cap es =>
    cases hbd : cfg.build with
    | chains => simp only [resizeEntryCapacity, hs]; exact ⟨by omega, by omega, by simp⟩
    | oa =>
      simp only [resizeEntryCapacity, hs]
      have := hle (min capacity oaCoupledMax)
      exact ⟨hfive _ (by omega), by omega, by simp⟩

theorem oaIndexResize_spec (wf : WF cfg hv) (hb : IsBucketCount capacity)
    (hk : hv.keys ≤ oaEntryCapacity capacity) :
    returns (oaIndexResize cfg.build capacity) hv fun _ hv' =>
      Kept cfg hv hv' ∧ ∃ oa pack, hv'.storage = .indexed oa ∧ oa.buckets = capacity ∧
        oa.tombstones = 0 ∧ (∀ old, hv.storage = .indexed old → old.capacity ≤ oa.capacity) ∧
        oa.used = if rebuildCompacts cfg.build hv capacity oa.capacity pack then hv.keys
          else hv.entries.length := by
  obtain ⟨h4, hmax, hold⟩ := resizeEntryCapacity_bounds wf hb hk
  have hmk := hb.entryCapacity_le
  have hmk' := hvMaxKeys_eq
  have hi : i32Max = 2147483647 := by decide
  obtain ⟨c, hg, hlc, hcc, hc⟩ := growEntryCapacity_spec hv.keys h4
    (by omega : hv.keys ≤ _ + hv.keys)
  simp only [oaIndexResize, returns, wp_bind, wp_get, hg]
  refine wp_of_returns (oaRebuild_spec wf hb (by omega) (by omega) hk hlc) ?_
  rintro - hv' ⟨hkept, oa, hst, hbk, hcap, htomb, hused⟩
  exact ⟨hkept, oa, _, hst, hbk, htomb, fun old ho => (hold old ho).trans (by omega),
    hcap ▸ hused⟩

theorem oaPromote_spec (wf : WF cfg hv) (hk : hv.keys ≤ 8) :
    returns (oaPromote cfg.build) hv fun _ hv' =>
      Kept cfg hv hv' ∧ ∃ oa, hv'.storage = .indexed oa := by
  obtain ⟨c, hc, hb, hkc⟩ := promoteCapacity_spec hk
  simp only [oaPromote, returns, wp_bind, wp_get, hc]
  refine wp_of_returns (oaIndexResize_spec wf hb hkc) ?_
  rintro - hv' ⟨hkept, oa, -, hst, -⟩
  exact ⟨hkept, oa, hst⟩

/-- A step towards a new entry: it keeps the view, and a saved slot either stays the
right one or is dropped. -/
structure MakesRoom (cfg : Config) (hv : HV V) (slot : Option Nat) (hv' : HV V)
    (slot' : Option Nat) : Prop where
  kept : Kept cfg hv hv'
  saved : ∀ hash, SavedSlot cfg.build hv hash slot → SavedSlot cfg.build hv' hash slot'

theorem MakesRoom.refl (wf : WF cfg hv) (slot : Option Nat) : MakesRoom cfg hv slot hv slot :=
  ⟨.refl wf, fun _ h => h⟩

theorem MakesRoom.dropped {hv' : HV V} (h : Kept cfg hv hv') (slot : Option Nat) :
    MakesRoom cfg hv slot hv' none :=
  ⟨h, fun _ _ => by simp [SavedSlot]⟩

theorem MakesRoom.trans {hv' hv'' : HV V} {slot slot' slot'' : Option Nat}
    (h : MakesRoom cfg hv slot hv' slot') (h' : MakesRoom cfg hv' slot' hv'' slot'') :
    MakesRoom cfg hv slot hv'' slot'' :=
  ⟨h.kept.trans h'.kept, fun hash hs => h'.saved hash (h.saved hash hs)⟩

def Growable (oa : OA V) : Prop := oa.used = oa.capacity → oa.capacity ≤ 2 ^ 30

theorem growable_of {old : OA V} {keys : Nat} (hk : keys ≤ hvMaxKeys) (hold : Growable old)
    (hou : old.used ≤ old.capacity) (hcap : old.capacity ≤ oa.capacity)
    (hused : oa.used = keys ∨ oa.used = old.used) : Growable oa := by
  intro hfull
  have := hvMaxKeys_eq
  rcases hused with h | h
  · omega
  · have := hold (by omega)
    omega

def Settled (keys : Nat) (oa : OA V) : Prop :=
  oa.used = oa.capacity → oaCompactionWorthwhile oa.used keys oa.capacity = false

theorem oaPackHoles_spec (wf : WF cfg hv) (hst : hv.storage = .indexed oa)
    (hmax : hv.keys < hvMaxKeys) (slot : Option Nat) :
    returns (oaPackHoles cfg.build slot) hv fun slot' hv' =>
      MakesRoom cfg hv slot hv' slot' ∧ ∃ oa', hv'.storage = .indexed oa' ∧ Growable oa' ∧
        oa'.capacity ≤ oa.capacity ∧ Settled hv.keys oa' := by
  have hsz := (wf.indexed hst).sized
  have hmk := hvMaxKeys_eq
  have hi : i32Max = 2147483647 := by decide
  have h4 := hsz.four_le
  have hle := hsz.le_max
  have hu := hsz.used_le
  have hkl := wf.keys_eq
  have hku : hv.keys ≤ oa.used := by
    have := live_length_le hv
    rw [entries_indexed hst] at this
    exact hkl ▸ this
  have hkb := wf.keys_le hst
  simp only [oaPackHoles, returns, wp_bind, wp_get, hst, wp_ite, wp_pure]
  refine ⟨fun hpack => ?_, fun hnot => ?_⟩
  · obtain ⟨-, hworth⟩ := hpack
    have hholes : oa.used - hv.keys ≥ oa.capacity / 5 + (if oa.capacity % 5 ≠ 0 then 1 else 0) := by
      simpa [oaCompactionWorthwhile] using hworth
    have hholes' : hv.keys < oa.used := by split at hholes <;> omega
    refine wp_of_returns (oaRebuildCapacity_spec (by omega) isBucketCount_eight) ?_
    rintro smaller _ ⟨rfl, hsb, -, hsk⟩
    have hbk : IsBucketCount (if smaller ≤ oa.buckets / 2 then smaller else oa.buckets) := by
      split
      · exact hsb
      · exact hsz.buckets
    have hkk : hv.keys ≤ oaEntryCapacity
        (if smaller ≤ oa.buckets / 2 then smaller else oa.buckets) := by
      split
      · rcases hsk with h | h
        · omega
        · rw [h]
          exact hmax.le
      · exact hkb
    refine wp_of_returns (oaRebuild_spec wf hbk ?_ ?_ hkk ?_) ?_
    · split <;> omega
    · split <;> omega
    · split <;> omega
    · rintro - hv' ⟨hkept, oa', hst', -, hcap, -, hused⟩
      have hcompacts : ∀ b c, rebuildCompacts cfg.build hv b c true = true := by
        intro b c
        have : hv.entries.length = oa.used := by rw [entries_indexed hst]; rfl
        simp only [rebuildCompacts, this, Bool.true_or, Bool.and_true, decide_eq_true_eq]
        omega
      rw [hcompacts, if_pos rfl] at hused
      have hnotfull : oa'.used ≠ oa'.capacity := by
        rw [hused, hcap]
        split <;> omega
      refine ⟨.dropped hkept slot, oa', hst', fun hfull => absurd hfull hnotfull, ?_,
        fun hfull => absurd hfull hnotfull⟩
      rw [hcap]
      split <;> omega
  · have hsettled : Settled hv.keys oa := by
      intro hfull
      by_contra hw
      exact hnot ⟨Or.inl hfull, by simpa using hw⟩
    refine ⟨.refl wf slot, oa, rfl, fun hfull => ?_, le_rfl, hsettled⟩
    have hnotworth := hsettled hfull
    by_contra hgt
    simp only [oaCompactionWorthwhile, decide_eq_false_iff_not] at hnotworth
    split at hnotworth <;> omega

theorem oaRelieveIndex_spec (wf : WF cfg hv) (hst : hv.storage = .indexed oa)
    (hgrow : Growable oa) (hmax : hv.keys < hvMaxKeys) (slot : Option Nat) :
    returns (oaRelieveIndex cfg.build slot) hv fun slot' hv' =>
      MakesRoom cfg hv slot hv' slot' ∧ ∃ oa', hv'.storage = .indexed oa' ∧ Growable oa' ∧
        indexLoad cfg.build hv' oa' < oaEntryCapacity oa'.buckets := by
  have hsz := (wf.indexed hst).sized
  have hload := (wf.indexed hst).load
  have hu := hsz.used_le
  have hlen : hv.entries.length = oa.used := by rw [entries_indexed hst]; rfl
  have hresize : ∀ c, IsBucketCount c → hv.keys < oaEntryCapacity c →
      returns (oaIndexResize cfg.build c) hv fun _ hv' =>
        MakesRoom cfg hv slot hv' none ∧ ∃ oa', hv'.storage = .indexed oa' ∧ Growable oa' ∧
          indexLoad cfg.build hv' oa' < oaEntryCapacity oa'.buckets := by
    intro c hb hk
    refine wp_of_returns (oaIndexResize_spec wf hb hk.le) ?_
    rintro - hv' ⟨hkept, oa', pack, hst', hbk, htomb, hcap, hused⟩
    refine ⟨.dropped hkept slot, oa', hst', ?_, ?_⟩
    · refine growable_of hmax.le hgrow hu (hcap oa hst) ?_
      rw [hused, hlen]
      split <;> simp
    · have : indexLoad cfg.build hv' oa' = hv.keys := by
        unfold indexLoad
        cases cfg.build <;> simp only [htomb, Nat.add_zero] <;> exact hkept.keys
      rw [this, hbk]
      exact hk
  have hroom : ∀ c, IsBucketCount c → (hv.keys < oaEntryCapacity c ∨ c = hvMaxBuckets) →
      hv.keys < oaEntryCapacity c := by
    rintro c - (h | rfl)
    · exact h
    · exact hmax
  have h8 := hsz.buckets.ge
  cases hbd : cfg.build with
  | chains =>
    rw [hbd] at hresize hload
    simp only [oaRelieveIndex, returns, wp_bind, wp_get, hst, wp_ite, wp_pure]
    refine ⟨fun _ => ?_, fun h => ⟨.refl wf slot, oa, rfl, hgrow, by simpa [indexLoad] using h⟩⟩
    refine wp_of_returns (oaRebuildCapacity_spec hmax.le isBucketCount_eight) ?_
    rintro c _ ⟨rfl, hb, -, hc⟩
    exact hresize c hb (hroom c hb hc)
  | oa =>
    rw [hbd] at hresize hload
    simp only [indexLoad] at hload
    simp only [oaRelieveIndex, returns, wp_bind, wp_get, hst, wp_ite, wp_pure]
    refine ⟨fun hfull => ⟨fun _ => ?_, fun htomb => ?_⟩,
      fun h => ⟨.refl wf slot, oa, rfl, hgrow, by simpa [indexLoad] using h⟩⟩
    · refine wp_of_returns (oaRebuildCapacity_spec hmax.le isBucketCount_eight) ?_
      rintro c _ ⟨rfl, hb, -, hc⟩
      exact hresize c hb (hroom c hb hc)
    · refine hresize oa.buckets hsz.buckets ?_
      have : 5 ≤ oaEntryCapacity oa.buckets := by
        have := oaEntryCapacity_mono h8
        exact le_trans (by decide) this
      omega

theorem oaGrowCoupled_spec (wf : WF cfg hv) (hst : hv.storage = .indexed oa)
    (hgrow : Growable oa) (hload : indexLoad cfg.build hv oa < oaEntryCapacity oa.buckets)
    (slot : Option Nat) :
    returns (oaGrowCoupled cfg.build slot) hv fun slot' hv' =>
      MakesRoom cfg hv slot hv' slot' ∧ ∃ oa', hv'.storage = .indexed oa' ∧ Growable oa' ∧
        indexLoad cfg.build hv' oa' < oaEntryCapacity oa'.buckets := by
  have hsz := (wf.indexed hst).sized
  have hu := hsz.used_le
  have hk : hv.keys < oaEntryCapacity oa.buckets := by
    refine lt_of_le_of_lt ?_ hload
    unfold indexLoad
    cases cfg.build <;> simp
  have hmax := hsz.buckets.entryCapacity_le
  have hlen : hv.entries.length = oa.used := by rw [entries_indexed hst]; rfl
  simp only [oaGrowCoupled, returns, wp_bind, wp_get, hst, wp_ite, wp_pure]
  refine ⟨fun hcoupled => ?_, fun _ => ⟨.refl wf slot, oa, rfl, hgrow, hload⟩⟩
  have hlt : oa.buckets < hvMaxBuckets := lt_of_le_of_lt hcoupled.2.2.1 (by decide)
  refine wp_of_returns (oaRebuildCapacity_spec (by omega) (hsz.buckets.double hlt)) ?_
  rintro c _ ⟨rfl, hb, hge, -⟩
  have hkc : hv.keys < oaEntryCapacity c :=
    hk.trans_le (oaEntryCapacity_mono (by omega))
  refine wp_of_returns (oaIndexResize_spec wf hb hkc.le) ?_
  rintro - hv' ⟨hkept, oa', pack, hst', hbk, htomb, hcap, hused⟩
  refine ⟨.dropped hkept slot, oa', hst', ?_, ?_⟩
  · refine growable_of (by omega : hv.keys ≤ hvMaxKeys) hgrow hu (hcap oa hst) ?_
    rw [hused, hlen]
    split <;> simp
  · have : indexLoad cfg.build hv' oa' = hv.keys := by
      unfold indexLoad
      cases cfg.build <;> simp only [htomb, Nat.add_zero] <;> exact hkept.keys
    rw [this, hbk]
    exact hkc

theorem kept_withIndex (wf : WF cfg hv) {oa' : OA V} (hst : hv.storage = .indexed oa)
    (hes : oa'.entries = oa.entries)
    (hok : IndexedOk cfg.build ({ hv with storage := .indexed oa' } : HV V) oa') :
    Kept cfg hv { hv with storage := .indexed oa' } := by
  obtain ⟨hview, hcursor, hcok⟩ := withStorage_spec (.indexed oa')
    (hes.trans (entries_indexed hst).symm) (first_of_sameEntries hst hes)
  exact ⟨⟨hok, hcok wf.cursor, hview ▸ wf.view⟩, hview, hcursor⟩

theorem reserveEntries_spec (wf : WF cfg hv) (hst : hv.storage = .indexed oa)
    (hc : capacity ≤ i32Max) :
    returns (onOA (oaReserveEntries cfg.build capacity)) hv fun _ hv' =>
      (∀ slot, MakesRoom cfg hv slot hv' slot) ∧ ∃ oa', hv'.storage = .indexed oa' ∧
        oa'.capacity = max oa.capacity capacity ∧ oa'.used = oa.used ∧ oa'.buckets = oa.buckets ∧
        indexLoad cfg.build hv' oa' = indexLoad cfg.build hv oa := by
  have hx := wf.indexed hst
  have hsz := hx.sized
  have hu := hsz.used_le
  have h4 := hsz.four_le
  have hmax := hsz.le_max
  rw [returns, wp_onOA hst]
  refine wp_of_returns (oaReserveEntries_spec hsz (wf.homesIn hst) hx.index hc) ?_
  rintro - oa' ⟨hx', hes, hbk, htomb, hcap, hcells⟩
  have hused : oa'.used = oa.used := by rw [OA.used, hes]; rfl
  have hw : oa'.width .oa = oa.width .oa := by
    unfold OA.width widthKey
    rw [hbk]
  have hload : indexLoad cfg.build ({ hv with storage := .indexed oa' } : HV V) oa' =
      indexLoad cfg.build hv oa := by
    unfold indexLoad
    cases cfg.build <;> simp [htomb]
  have hok : IndexedOk cfg.build ({ hv with storage := .indexed oa' } : HV V) oa' := by
    refine ⟨⟨hbk ▸ hsz.buckets, by omega, by omega, by omega, fun hb => ?_⟩, ?_, ?_⟩
    · rw [hused, hw]
      exact hsz.position hb
    · convert hx' using 1
      funext i
      simp only [HV.homeOf, first_of_sameEntries hst hes, hbk]
    · rw [hload, hbk]
      exact hx.load
  refine ⟨fun slot => ⟨kept_withIndex wf hst hes hok, fun hash hs pos hpos => ?_⟩,
    oa', rfl, hcap, hused, hbk, hload⟩
  obtain ⟨oa₀, ho, hb, hfree⟩ := hs pos hpos
  obtain rfl : oa = oa₀ := by simpa [hst] using ho
  exact ⟨oa', rfl, hb, by rw [hcells hb, hbk]; exact hfree⟩

theorem oaGrowEntries_spec (wf : WF cfg hv) (hst : hv.storage = .indexed oa)
    (hgrow : Growable oa) (hload : indexLoad cfg.build hv oa < oaEntryCapacity oa.buckets)
    (slot : Option Nat) :
    returns (oaGrowEntries cfg.build) hv fun _ hv' =>
      MakesRoom cfg hv slot hv' slot ∧ ∃ oa', hv'.storage = .indexed oa' ∧
        oa'.used < oa'.capacity ∧
        indexLoad cfg.build hv' oa' < oaEntryCapacity oa'.buckets := by
  have hsz := (wf.indexed hst).sized
  have hi : i32Max = 2147483647 := by decide
  have hu := hsz.used_le
  have h4 := hsz.four_le
  simp only [oaGrowEntries, returns, wp_bind, wp_get, hst, wp_ite, wp_pure, wp_throwIf]
  refine ⟨fun hfull => ?_, fun hne => ⟨.refl wf slot, oa, rfl, by omega, hload⟩⟩
  have hsmall := hgrow hfull
  have hmod : (oa.capacity + oa.capacity / 4) % 2 ^ 32 = oa.capacity + oa.capacity / 4 :=
    Nat.mod_eq_of_lt (by omega)
  rw [hmod]
  refine ⟨by omega, fun _ => ?_⟩
  refine wp_of_returns (reserveEntries_spec wf hst (by omega)) ?_
  rintro - hv' ⟨hroom, oa', hst', hcap, hused, hbk, hl⟩
  exact ⟨hroom slot, oa', hst', by omega, by rw [hl, hbk]; exact hload⟩

theorem oaFitPositions_spec (wf : WF cfg hv) (hst : hv.storage = .indexed oa)
    (huc : oa.used < oa.capacity)
    (hload : indexLoad cfg.build hv oa < oaEntryCapacity oa.buckets) (slot : Option Nat) :
    returns (oaFitPositions cfg.build slot) hv fun slot' hv' =>
      MakesRoom cfg hv slot hv' slot' ∧ ∃ oa', hv'.storage = .indexed oa' ∧
        oa'.used < oa'.capacity ∧ (cfg.build = .oa → oa'.used + 3 ≤ 256 ^ oa'.width .oa) ∧
        indexLoad cfg.build hv' oa' < oaEntryCapacity oa'.buckets := by
  have hx := wf.indexed hst
  have hsz := hx.sized
  have hi : i32Max = 2147483647 := by decide
  have hmax := hsz.le_max
  have hk := wf.keys_le hst
  have hlen : hv.entries.length = oa.used := by rw [entries_indexed hst]; rfl
  have hke : hv.keys < oaEntryCapacity oa.buckets := by
    refine lt_of_le_of_lt ?_ hload
    unfold indexLoad
    cases cfg.build <;> simp
  have hec : oaEntryCapacity oa.buckets ≤ oa.buckets * 2 / 3 + 1 := by
    unfold oaEntryCapacity
    omega
  simp only [oaFitPositions, returns, wp_bind, wp_get, hst, wp_ite, wp_pure]
  refine ⟨fun hfull => ?_, fun hnot => ⟨.refl wf slot, oa, rfl, huc, fun hb => ?_, hload⟩⟩
  · obtain ⟨hb, hpos⟩ := hfull
    refine wp_of_returns (oaIndexResize_spec wf hsz.buckets hk) ?_
    rintro - hv' ⟨hkept, oa', pack, hst', hbk, htomb, hcap, hused⟩
    have hcompacts : rebuildCompacts cfg.build hv oa.buckets oa'.capacity pack = true := by
      simp only [rebuildCompacts, hlen, hb, beq_self_eq_true, Bool.true_and, Bool.and_eq_true,
        Bool.or_eq_true, decide_eq_true_eq]
      refine ⟨?_, Or.inr hpos⟩
      omega
    rw [hcompacts, if_pos rfl] at hused
    have hcap' := hcap oa hst
    have hku : hv.keys < oa.used := by omega
    refine ⟨.dropped hkept slot, oa', hst', by omega, fun _ => ?_, ?_⟩
    · rw [hused, OA.width, widthKey, hbk, indexWidthFor]
      split_ifs <;> omega
    · have : indexLoad cfg.build hv' oa' = hv.keys := by
        unfold indexLoad
        cases cfg.build <;> simp only [htomb, Nat.add_zero] <;> exact hkept.keys
      rw [this, hbk]
      exact hke
  · have : ¬(oa.buckets ≤ 128 ∧ oa.used ≥ 0xFE ∨ oa.buckets ≤ 32768 ∧ oa.used ≥ 0xFFFE) :=
      fun h => hnot ⟨hb, h⟩
    rw [OA.width, widthKey, indexWidthFor]
    split_ifs <;> omega

theorem appendVacant_spec (wf : WF cfg hv) (hst : hv.storage = .indexed oa)
    (huc : oa.used < oa.capacity) (hpos : cfg.build = .oa → oa.used + 3 ≤ 256 ^ oa.width .oa) :
    Kept cfg hv (hv.withEntries (hv.entries ++ [HE.vacant])) := by
  have hx := wf.indexed hst
  have hsz := hx.sized
  set oa' : OA V := { oa with entries := oa.entries ++ [HE.vacant] } with hoa'
  have hv' : hv.withEntries (hv.entries ++ [HE.vacant]) = { hv with storage := .indexed oa' } := by
    rw [HV.withEntries, entries_indexed hst, hst]
    rfl
  rw [hv']
  have hst' : ({ hv with storage := .indexed oa' } : HV V).storage = .indexed oa' := rfl
  have hfirst : ({ hv with storage := .indexed oa' } : HV V).hvEntryFirst = hv.hvEntryFirst := by
    funext i
    rw [hvEntryFirst_indexed hst', hvEntryFirst_indexed hst, List.getElem?_append]
    split
    · rfl
    · rename_i hge
      rw [List.getElem?_eq_none (Nat.le_of_not_lt hge)]
      cases h : i - oa.entries.length with
      | zero => rfl
      | succ n => rfl
  have hused : oa'.used = oa.used + 1 := by simp [OA.used, hoa']
  have hlim : hv.hvEntryLimit = oa.used := by rw [HV.hvEntryLimit, entries_indexed hst]; rfl
  have hslots : ({ hv with storage := .indexed oa' } : HV V).slots = hv.slots ++ [none] := by
    unfold HV.slots
    have hlim' : ({ hv with storage := .indexed oa' } : HV V).hvEntryLimit =
        hv.hvEntryLimit + 1 := by rw [hlim]; exact hused
    rw [hfirst, hlim', List.range_succ, List.map_append]
    congr 1
    cases hf : hv.hvEntryFirst hv.hvEntryLimit with
    | none => simp [hf]
    | some he => exact absurd (lt_of_first hf) (lt_irrefl _)
  have hnone : ∀ l : List (Option (HE V)), (l ++ [none]).reduceOption = l.reduceOption := by
    intro l
    rw [List.reduceOption_append]
    simp [List.reduceOption_cons_of_none]
  have hcurrent : ({ hv with storage := .indexed oa' } : HV V).current = hv.current := by
    refine current_eq_of rfl fun i hi => ?_
    have hlt := eiter_lt wf hi
    rw [entries_indexed hst] at hlt
    rw [entries_indexed hst', entries_indexed hst, List.getElem?_append_left hlt]
  have hview : ({ hv with storage := .indexed oa' } : HV V).view = hv.view := by
    simp only [HV.view, HV.pendingHek, HV.currentId, hcurrent, HV.live, hslots, hnone]
  have hcursor : ({ hv with storage := .indexed oa' } : HV V).cursor = hv.cursor := by
    unfold HV.cursor HV.unvisited
    rw [hslots]
    show (⟨((hv.slots ++ [none]).drop (hv.riter + 1).toNat).reduceOption, _, _⟩ : Cursor V) = _
    congr 1
    rcases Nat.le_total (hv.riter + 1).toNat hv.slots.length with h | h
    · rw [List.drop_append_of_le_length h, hnone]
    · rw [List.drop_eq_nil_of_le h, List.drop_append, List.drop_eq_nil_of_le h]
      cases (hv.riter + 1).toNat - hv.slots.length <;> simp [List.reduceOption_cons_of_none]
  refine ⟨⟨?_, ⟨wf.cursor.riter, ?_, wf.cursor.retired⟩, hview ▸ wf.view⟩, hview, hcursor⟩
  · refine ⟨⟨hsz.buckets, hsz.four_le, hsz.le_max, by rw [hused]; exact huc, fun hb => ?_⟩, ?_, ?_⟩
    · have := hpos hb
      rw [hused]
      show oa.used + 1 + 2 ≤ 256 ^ oa.width .oa
      omega
    · have hhome : ({ hv with storage := .indexed oa' } : HV V).homeOf oa' = hv.homeOf oa := by
        funext i
        simp only [HV.homeOf, hfirst]
        rfl
      rw [hhome]
      exact hx.index.withEntries _
    · exact hx.load
  · rw [hfirst]
    exact wf.cursor.slot

theorem oaNewEntry_spec (wf : WF cfg hv) (hst : hv.storage = .indexed oa)
    (hmax : hv.keys < hvMaxKeys) (slot : Option Nat) :
    returns (oaNewEntry cfg.build slot) hv fun r hv' =>
      MakesRoom cfg hv slot hv' r.2 ∧ ∃ oa', hv'.storage = .indexed oa' ∧ oa'.used = r.1 + 1 ∧
        oa'.entries[r.1]? = some HE.vacant ∧
        indexLoad cfg.build hv' oa' < oaEntryCapacity oa'.buckets := by
  simp only [oaNewEntry, returns, wp_bind, wp_get, wp_set, wp_pure]
  refine wp_of_returns (oaPackHoles_spec wf hst hmax slot) ?_
  rintro s₁ hv₁ ⟨h₁, oa₁, hst₁, hg₁, -⟩
  have hk₁ := h₁.kept.keys
  refine wp_of_returns (oaRelieveIndex_spec h₁.kept.wf hst₁ hg₁ (by omega) s₁) ?_
  rintro s₂ hv₂ ⟨h₂, oa₂, hst₂, hg₂, hl₂⟩
  refine wp_of_returns (oaGrowCoupled_spec h₂.kept.wf hst₂ hg₂ hl₂ s₂) ?_
  rintro s₃ hv₃ ⟨h₃, oa₃, hst₃, hg₃, hl₃⟩
  refine wp_of_returns (oaGrowEntries_spec h₃.kept.wf hst₃ hg₃ hl₃ s₃) ?_
  rintro - hv₄ ⟨h₄, oa₄, hst₄, hu₄, hl₄⟩
  refine wp_of_returns (oaFitPositions_spec h₄.kept.wf hst₄ hu₄ hl₄ s₃) ?_
  rintro s₅ hv₅ ⟨h₅, oa₅, hst₅, hu₅, hp₅, hl₅⟩
  have hkept := appendVacant_spec h₅.kept.wf hst₅ hu₅ hp₅
  have hentries := entries_indexed hst₅
  have hlast : hv₅.withEntries (hv₅.entries ++ [HE.vacant]) =
      { hv₅ with storage := .indexed { oa₅ with entries := oa₅.entries ++ [HE.vacant] } } := by
    rw [HV.withEntries, hentries, hst₅]
    rfl
  refine ⟨(h₁.trans (h₂.trans (h₃.trans (h₄.trans h₅)))).trans
    ⟨hkept, fun hash hs pos hpos => ?_⟩, ?_⟩
  · obtain ⟨oa', ho, hb, hfree⟩ := hs pos hpos
    obtain rfl : oa₅ = oa' := by simpa [hst₅] using ho
    rw [hlast]
    exact ⟨_, rfl, hb, hfree⟩
  · rw [hlast]
    refine ⟨_, rfl, by simp [OA.used, hentries], by simp [hentries], ?_⟩
    exact hl₅

end XPerl.Hash
