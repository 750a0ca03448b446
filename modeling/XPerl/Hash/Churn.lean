import XPerl.Hash.Capacity

/-! Runs without reservations: how far the entry array grows. -/

namespace XPerl.Hash

open XPerl.Framework XPerl.Framework.Exec

variable {V : Type} {cfg : Config} {hv hv' : HV V} {B N : Nat}

def churnBound (n : Nat) : Nat := max 8 ((25 * n + 15) / 16 + 2)

theorem churnBound_ge (n : Nat) : 8 ≤ churnBound n := Nat.le_max_left ..

theorem growEntryCapacity_of_le {live fuel capacity : Nat} (h : live ≤ capacity) :
    growEntryCapacity live fuel capacity = some capacity := by
  cases fuel <;> simp [growEntryCapacity, Nat.not_lt.2 h]

theorem oaIndexResize_keeps (wf : WF cfg hv) {c : Nat} (hb : IsBucketCount c)
    (hk : hv.keys ≤ oaEntryCapacity c) (hroom : hv.keys ≤ resizeEntryCapacity cfg.build hv c) :
    returns (oaIndexResize cfg.build c) hv fun _ hv' => Kept cfg hv hv' ∧ ∃ oa,
      hv'.storage = .indexed oa ∧ oa.capacity = resizeEntryCapacity cfg.build hv c ∧
        (oa.used = hv.keys ∨ oa.used = hv.entries.length) := by
  obtain ⟨h4, hmax, -⟩ := resizeEntryCapacity_bounds wf hb hk
  simp only [oaIndexResize, returns, wp_bind, wp_get, growEntryCapacity_of_le hroom]
  refine wp_of_returns (oaRebuild_spec wf hb h4 hmax hk hroom) ?_
  rintro - hv' ⟨hkept, oa, hst, -, hcap, -, hused⟩
  refine ⟨hkept, oa, hst, hcap, ?_⟩
  split_ifs at hused
  · exact .inl hused
  · exact .inr hused

variable {oa : OA V} {keys : Nat}

theorem keys_le_used (wf : WF cfg hv) (hst : hv.storage = .indexed oa) :
    hv.keys ≤ oa.used := by
  have hlive := live_length_le hv
  rw [entries_indexed hst, ← wf.keys_eq] at hlive
  exact hlive

theorem Settled.of_used {oa' : OA V} (h : Settled keys oa) (h4 : 4 ≤ oa.capacity)
    (hcap : oa'.capacity = oa.capacity) (hused : oa'.used = keys ∨ oa'.used = oa.used) :
    Settled keys oa' := by
  intro hfull
  rcases hused with heq | heq
  · rw [heq, oaCompactionWorthwhile, decide_eq_false_iff_not]
    split_ifs <;> omega
  · rw [heq, hcap] at hfull ⊢
    exact h hfull

theorem oaRelieveIndex_keeps (wf : WF cfg hv) (hchains : cfg.build = .chains)
    (hst : hv.storage = .indexed oa) (hmax : hv.keys < hvMaxKeys) (slot : Option Nat) :
    returns (oaRelieveIndex cfg.build slot) hv fun _ hv' => Kept cfg hv hv' ∧ ∃ oa',
      hv'.storage = .indexed oa' ∧ oa'.capacity = oa.capacity ∧
        (oa'.used = hv.keys ∨ oa'.used = oa.used) := by
  have hku := keys_le_used wf hst
  have hu := (wf.indexed hst).sized.used_le
  have hroom : ∀ c, resizeEntryCapacity cfg.build hv c = oa.capacity := by
    intro c
    unfold resizeEntryCapacity
    rw [hchains, hst]
  have hlen : hv.entries.length = oa.used := by rw [entries_indexed hst]; rfl
  rw [hchains]
  simp only [oaRelieveIndex, returns, wp_bind, wp_get, hst, wp_ite, wp_pure]
  refine ⟨fun _ => ?_, fun _ => ⟨.refl wf, oa, rfl, rfl, .inr rfl⟩⟩
  refine wp_of_returns (oaRebuildCapacity_spec hmax.le isBucketCount_eight) ?_
  rintro c _ ⟨rfl, hb, -, hc⟩
  have hkc : hv.keys ≤ oaEntryCapacity c := by
    rcases hc with hlt | heq
    · exact hlt.le
    · rw [heq]
      exact hmax.le
  rw [← hchains]
  refine wp_of_returns (oaIndexResize_keeps wf hb hkc (by rw [hroom]; omega)) ?_
  rintro - hv' ⟨hkept, oa', hst', hcap, hused⟩
  rw [hroom] at hcap
  rw [hlen] at hused
  exact ⟨hkept, oa', hst', hcap, hused⟩

theorem grown_le (hsettled : Settled keys oa) (hku : keys ≤ oa.used)
    (hN : keys ≤ N) (hfull : oa.used = oa.capacity) :
    oa.capacity + oa.capacity / 4 ≤ churnBound N := by
  have hworth := hsettled hfull
  rw [oaCompactionWorthwhile, decide_eq_false_iff_not] at hworth
  unfold churnBound
  split_ifs at hworth <;> omega

theorem grown_le_max (hsettled : Settled keys oa) (hku : keys ≤ oa.used)
    (hmax : keys < hvMaxKeys) (hfull : oa.used = oa.capacity) :
    oa.capacity + oa.capacity / 4 ≤ i32Max := by
  have hworth := hsettled hfull
  rw [oaCompactionWorthwhile, decide_eq_false_iff_not] at hworth
  have := hvMaxKeys_eq
  have hi : i32Max = 2147483647 := by decide
  split_ifs at hworth <;> omega

abbrev Bounded (cfg : Config) (N : Nat) (hv : HV V) {α : Type} (m : HvM V α) : Prop :=
  wp m hv (fun _ => Fits cfg (churnBound N)) fun _ => Fits cfg (churnBound N)

theorem oaNewEntry_bounded (wf : WF cfg hv) (hchains : cfg.build = .chains)
    (hst : hv.storage = .indexed oa) (hmax : hv.keys < hvMaxKeys) (hN : hv.keys ≤ N)
    (hcap : oa.capacity ≤ churnBound N) (slot : Option Nat) :
    Bounded cfg N hv (oaNewEntry cfg.build slot) := by
  simp only [oaNewEntry, wp_bind, wp_get, wp_set, wp_pure]
  refine wp_of_returns (oaPackHoles_spec wf hst hmax slot) ?_
  rintro s₁ hv₁ ⟨h₁, oa₁, hst₁, -, hcap₁, hsettled₁⟩
  have hk₁ := h₁.kept.keys
  refine wp_of_returns (oaRelieveIndex_keeps h₁.kept.wf hchains hst₁ (by omega) s₁) ?_
  rintro s₂ hv₂ ⟨h₂, oa₂, hst₂, hcap₂, hused₂⟩
  have hk₂ := h₂.keys
  have hku₂ := keys_le_used h₂.wf hst₂
  have h4 := (h₁.kept.wf.indexed hst₁).sized.four_le
  have hsettled₂ := hsettled₁.of_used h4 hcap₂ (by rw [← hk₁]; exact hused₂)
  have hcoupled : wp (oaGrowCoupled cfg.build s₂) hv₂ (fun _ hv' => hv' = hv₂) fun _ _ => False := by
    simp [oaGrowCoupled, hst₂, hchains]
  refine wp_of_returns hcoupled ?_
  rintro s₃ hv₃ rfl
  have hfit : ∀ (hv' : HV V) s, wp (oaFitPositions cfg.build s) hv' (fun _ t => t = hv')
      fun _ t => t = hv' := by
    intro hv' s
    simp only [oaFitPositions, wp_bind, wp_get]
    split <;> simp [hchains]
  have hlast : ∀ hv' : HV V, Fits cfg (churnBound N) hv' →
      wp (oaFitPositions cfg.build s₃) hv' (fun _ t => Fits cfg (churnBound N)
        (t.withEntries (t.entries ++ [HE.vacant]))) fun _ => Fits cfg (churnBound N) := by
    intro hv' hfits
    refine wp_mono (hfit hv' s₃) ?_ ?_
    · rintro _ t rfl
      exact hfits.of_shape (shape_withEntries _ _)
    · rintro _ t rfl
      exact hfits
  have hfits₂ : Fits cfg (churnBound N) hv₃ := by
    rw [fits_indexed hst₂]
    omega
  simp only [oaGrowEntries, wp_bind, wp_get, hst₂, wp_ite, wp_pure, wp_throwIf]
  refine ⟨fun hfull => ⟨fun _ => hfits₂, fun _ => ?_⟩, fun _ => hlast _ hfits₂⟩
  have hgrown := grown_le hsettled₂ (by omega) hN hfull
  have hi := grown_le_max hsettled₂ (by omega) hmax hfull
  have hi32 : i32Max < 2 ^ 32 := by decide
  rw [Nat.mod_eq_of_lt (by omega)]
  refine wp_of_returns (reserveEntries_spec h₂.wf hst₂ hi) ?_
  rintro - hv₄ ⟨-, oa₄, hst₄, hcap₄, -⟩
  refine hlast _ ?_
  rw [fits_indexed hst₄, hcap₄]
  omega

theorem fits_linear {cap : Nat} {es : List (HE V)} (hst : hv.storage = .linear cap es) :
    Fits cfg B hv ↔ cfg.linearEnabled = true ∧ cap ≤ B := by
  simp [Fits, hst, Storage.shape]

theorem linearNewEntry_bounded (wf : WF cfg hv) (hchains : cfg.build = .chains) {cap : Nat}
    {es : List (HE V)} (hst : hv.storage = .linear cap es) (hmax : hv.keys < hvMaxKeys)
    (hN : hv.keys ≤ N) (hfits : Fits cfg (churnBound N) hv) :
    Bounded cfg N hv (linearNewEntry cfg) := by
  have hok := wf.storage
  simp only [StorageOk, hst] at hok
  obtain ⟨-, hlen, hcap, -, -⟩ := hok
  have h8 := cfg.linearMax_le
  have hB := churnBound_ge N
  have hk := keys_linear wf hst
  have hlin := ((fits_linear hst).1 hfits).1
  simp only [Bounded, linearNewEntry, wp_bind, wp_get, hst, wp_ite, wp_set, wp_pure, wp_throwIf]
  refine ⟨fun _ => ?_, fun _ => ⟨fun hfull => ⟨fun _ => ⟨fun _ => hfits, fun _ => ?_⟩, fun _ => ?_⟩,
    fun _ => hfits⟩⟩
  · exact (fits_linear rfl).2 ⟨hlin, by omega⟩
  · generalize hnext : min (if cap = 0 then 1 else cap * 2) cfg.linearMax = next
    simp only [linearReserve, wp_modify, hst]
    split_ifs
    · exact hfits
    · exact (fits_linear rfl).2 ⟨hlin, by omega⟩
  · have hsmall : hv.keys ≤ 8 := by omega
    obtain ⟨c, hc, hb, hkc⟩ := promoteCapacity_spec hsmall
    have hresize : ∀ c, resizeEntryCapacity cfg.build hv c = max hv.keys 8 := by
      intro c
      unfold resizeEntryCapacity
      rw [hchains, hst]
    simp only [oaPromote, wp_bind, wp_get, hc]
    refine wp_of_returns (oaIndexResize_keeps wf hb hkc (by rw [hresize]; omega)) ?_
    rintro - hv₁ ⟨hkept, oa, hst₁, hcap₁, -⟩
    have hk₁ := hkept.keys
    rw [hresize] at hcap₁
    refine wp_mono (oaNewEntry_bounded hkept.wf hchains hst₁ (by omega) (by omega) (by omega) none)
      (fun _ _ h => h) fun _ _ h => h

theorem newEntry_bounded (wf : WF cfg hv) (hchains : cfg.build = .chains)
    (hst : ∀ n, hv.storage ≠ .unallocated n) (hmax : hv.keys < hvMaxKeys) (hN : hv.keys ≤ N)
    (hfits : Fits cfg (churnBound N) hv) (slot : Option Nat) :
    Bounded cfg N hv (newEntry cfg slot) := by
  simp only [Bounded, newEntry, wp_bind, wp_get]
  cases hs : hv.storage with
  | unallocated n => exact absurd hs (hst n)
  | linear cap es =>
    simp only [wp_map]
    exact linearNewEntry_bounded wf hchains hs hmax hN hfits
  | indexed oa => exact oaNewEntry_bounded wf hchains hs hmax hN ((fits_indexed hs).1 hfits) slot

theorem allocateArray_bounded (wf : WF cfg hv) (hchains : cfg.build = .chains)
    (hfits : Fits cfg (churnBound N) hv) : Bounded cfg N hv (allocateArray cfg) := by
  have hok := wf.storage
  have hB := churnBound_ge N
  simp only [Bounded, allocateArray, wp_bind, wp_get, wp_ite, wp_set, wp_pure]
  refine ⟨fun hnull => ⟨fun hlin => (fits_linear rfl).2 ⟨hlin, Nat.zero_le _⟩, fun hlin => ?_⟩,
    fun _ => hfits⟩
  cases hst : hv.storage with
  | indexed oa => simp [HV.arrayNull, hst] at hnull
  | linear cap es => exact absurd ((fits_linear hst).1 hfits).1 hlin
  | unallocated n =>
    simp only [StorageOk, hst] at hok
    have hk := keys_unallocated wf hst
    have hresize : resizeEntryCapacity cfg.build hv n = max hv.keys 8 := by
      unfold resizeEntryCapacity
      rw [hchains, hst]
    have hbc : hv.bucketCount = n := by simp [HV.bucketCount, hst]
    rw [hbc]
    refine wp_of_returns (oaIndexResize_keeps wf hok.1 (by omega) (by rw [hresize]; omega)) ?_
    rintro - hv' ⟨-, oa, hst', hcap, -⟩
    rw [fits_indexed hst', hcap, hresize]
    omega

section Calls

variable [DecidableEq V] {q : Query}

omit [DecidableEq V] in
theorem insertEntry_bounded (wf : WF cfg hv) (hchains : cfg.build = .chains)
    (hmax : hv.keys < hvMaxKeys) (hN : hv.keys ≤ N) (hfits : Fits cfg (churnBound N) hv)
    (q : Query) (val : HeVal V) (slot : Option Nat) :
    Bounded cfg N hv (insertEntry cfg q val slot) := by
  have halloc := wp_and (allocateArray_spec wf slot) (allocateArray_bounded wf hchains hfits)
  rw [Bounded, insertEntry, wp_bind]
  refine wp_mono halloc ?_ fun _ _ h => h.2
  rintro - hv₁ ⟨⟨hroom₁, hform₁, -⟩, hfits₁⟩
  have hk₁ := hroom₁.kept.keys
  rw [wp_bind]
  refine wp_mono (newEntry_bounded hroom₁.kept.wf hchains hform₁ (by omega) (by omega) hfits₁ slot)
    ?_ fun _ _ h => h
  rintro ⟨i, slot'⟩ hv₂ hfits₂
  refine preserves_bind (newHek_fits q) (fun hek => ?_) _ hfits₂
  refine preserves_bind (modify_fits fun hv => shape_putNew hv i _) fun _ => ?_
  refine preserves_bind (indexNewEntry_fits _ i _ slot') fun _ => ?_
  exact preserves_bind (countNewEntry_fits q val) fun _ => preserves_pure _

def AgainBounded (cfg : Config) (N : Nat) (again : KeyArg → HeVal V → HvM V (Option (HE V))) :
    Prop :=
  ∀ hv : HV V, WF cfg hv → hv.keys ≤ N → Fits cfg (churnBound N) hv →
    ∀ k val, Bounded cfg N hv (again k val)

variable {again : KeyArg → HeVal V → HvM V (Option (HE V))}

theorem hvNotFound_bounded (wf : WF cfg hv) (hchains : cfg.build = .chains) (hN : hv.keys ≤ N)
    (hfits : Fits cfg (churnBound N) hv) (hagain : AgainBounded cfg N again) (k : KeyArg)
    (action : Action V) (found : Bool) (slot : Option Nat) :
    Bounded cfg N hv (hvNotFound cfg again k q action found slot) := by
  simp only [Bounded, hvNotFound, wp_bind, wp_get, wp_throwIf]
  refine ⟨fun _ => hfits, fun _ => ?_⟩
  cases action with
  | fetch => exact hfits
  | «exists» => exact hfits
  | store val =>
    simp only [wp_bind, wp_throwIf]
    exact ⟨fun _ => hfits, fun hmax => insertEntry_bounded wf hchains (by omega) hN hfits q val slot⟩
  | lvalue emptyHe sv =>
    simp only [wp_bind, wp_throwIf, wp_ite]
    exact ⟨fun _ => hfits, fun hmax => ⟨fun _ => hagain hv wf hN hfits _ _,
      fun _ => insertEntry_bounded wf hchains (by omega) hN hfits q _ slot⟩⟩

theorem foundStore_fits (q : Query) (k : KeyArg) (i : Nat) (val : HeVal V) :
    Preserves (Fits cfg B) (hvFound cfg noDestructor again k q (.store val) i) := by
  simp only [hvFound, Action.mutates, if_true]
  refine preserves_bind (adoptWasUtf8_fits q i) fun _ => preserves_bind (entryAt_fits i) fun he => ?_
  refine preserves_bind preserves_get fun hv => preserves_ite (fun _ => ?_) fun _ => storeOver_fits q i val
  refine preserves_bind (modify_fits fun hv => ?_) fun _ => preserves_map _ (entryAt_fits i)
  rw [shape_setVal]
  split_ifs <;> rfl

theorem foundLvalue_bounded (wf : WF cfg hv) (hchains : cfg.build = .chains) (hN : hv.keys ≤ N)
    (hfits : Fits cfg (churnBound N) hv) (hagain : AgainBounded cfg N again) (k : KeyArg)
    (emptyHe : Bool) (sv : V) {i : Nat} {he : HE V} {hek : HEK} (hat : At hv i q.id he)
    (hhek : he.hek = some hek) :
    Bounded cfg N hv (hvFound cfg noDestructor again k q (.lvalue emptyHe sv) i) := by
  have hadopt := wp_and (adoptWasUtf8_spec wf hat hhek).related (adoptWasUtf8_fits q i hv hfits)
  simp only [hvFound, Action.mutates, if_true]
  rw [Bounded, wp_bind]
  refine wp_mono hadopt ?_ fun _ _ h => h.2
  rintro - hv₁ ⟨⟨⟨⟨hek', hat₁⟩, hk₁, -⟩, v, wf₁, -⟩, hfits₁⟩
  rw [wp_bind, wp_entryAt hat₁, wp_bind, wp_get]
  simp only [wp_ite, wp_pure]
  refine ⟨fun _ => ⟨fun _ => ?_, fun _ => ?_⟩, fun _ => hfits₁⟩
  · exact hvNotFound_bounded wf₁ hchains (by omega) hfits₁ hagain k _ true none
  · refine preserves_bind (modify_fits fun hv => ?_) (fun _ => preserves_map _ (entryAt_fits i)) _ hfits₁
    rw [shape_setVal]
    rfl

theorem assign_bounded (wf : WF cfg hv) (hchains : cfg.build = .chains) (hN : hv.keys ≤ N)
    (hfits : Fits cfg (churnBound N) hv) (hagain : AgainBounded cfg N again) (k : KeyArg)
    {action : Action V} (hmut : action.mutates = true)
    (hfound : ∀ (hv₁ : HV V) i hek val, WF cfg hv₁ → hv₁.keys ≤ N → Fits cfg (churnBound N) hv₁ →
      At hv₁ i (commonQuery cfg k).id ⟨some hek, val⟩ →
      Bounded cfg N hv₁ (hvFound cfg noDestructor again k (commonQuery cfg k) action i)) :
    Bounded cfg N hv (hvCommonWith cfg noDestructor again k action) := by
  have hplain : plainFetch hv k action = false := by
    cases action <;> simp_all [plainFetch, Action.mutates]
  have halloc := wp_and (allocateArray_spec wf none) (allocateArray_bounded wf hchains hfits)
  rw [Bounded, hvCommonWith, wp_bind, wp_get]
  simp only [hplain, hmut, Bool.not_true, Bool.and_false, Bool.false_eq_true, if_false]
  rw [wp_bind]
  refine wp_mono halloc ?_ fun _ _ h => h.2
  rintro - hv₁ ⟨⟨hroom, -, -⟩, hfits₁⟩
  have wf₁ := hroom.kept.wf
  have hN₁ : hv₁.keys ≤ N := by rw [hroom.kept.keys]; exact hN
  rw [hvLookup, wp_bind, wp_get]
  rcases oaFind_view wf₁ (commonQuery cfg k).id with ⟨i, hek, val, slot, hat, hfind, -⟩ |
    ⟨slot, hnone, hfind, -⟩
  · simp only [hfind]
    exact hfound hv₁ i hek val wf₁ hN₁ hfits₁ hat
  · simp only [hfind]
    exact hvNotFound_bounded wf₁ hchains hN₁ hfits₁ hagain k action false slot

theorem store_bounded (hchains : cfg.build = .chains)
    (again : KeyArg → HeVal V → HvM V (Option (HE V))) (hagain : AgainBounded cfg N again) :
    AgainBounded cfg N fun k val => hvCommonWith cfg noDestructor again k (.store val) := by
  intro hv wf hN hfits k val
  refine assign_bounded wf hchains hN hfits hagain k rfl ?_
  intro hv₁ i hek old _ _ hfits₁ _
  exact foundStore_fits _ k i val hv₁ hfits₁

theorem hvStore_bounded (hchains : cfg.build = .chains) :
    AgainBounded cfg N (hvStore (V := V) cfg noDestructor) :=
  store_bounded hchains _ fun _ _ _ hfits _ _ => hfits

end Calls

/-- The U32 arithmetic of S_oa_new_entry, S_oa_index_resize and S_oa_reserve_entries on an
indexed hash. -/
structure IndexedInU32 (build : Build) (hv : HV V) (oa : OA V) : Prop where
  holes : hv.keys ≤ oa.used
  threshold : oa.capacity / 5 + 1 < 2 ^ 32
  load : indexLoad build hv oa + 1 < 2 ^ 32
  doubled : oa.buckets * 2 < 2 ^ 32
  grown : oa.capacity + oa.capacity / 4 < 2 ^ 32
  cells : oa.buckets + oa.capacity < 2 ^ 32

/-- None of the capacity computations wraps around. -/
structure InU32 (build : Build) (hv : HV V) : Prop where
  pending : hv.keys + 1 < 2 ^ 32
  shrink : hv.keys + hv.keys / 4 + 1 < 2 ^ 32
  /-- the loop of S_oa_index_resize -/
  resize : ∀ capacity < hv.keys, capacity + capacity / 4 < 2 ^ 32
  indexed : ∀ oa, hv.storage = .indexed oa → IndexedInU32 build hv oa

theorem inU32_of_wf (wf : WF cfg hv) (hmax : hv.keys < hvMaxKeys) : InU32 cfg.build hv := by
  have hmk := hvMaxKeys_eq
  refine ⟨by omega, by omega, by omega, fun oa hst => ?_⟩
  have hsz := (wf.indexed hst).sized
  have hload := (wf.indexed hst).load
  have hle := hsz.le_max
  have hi : i32Max = 2147483647 := by decide
  have hb := hsz.buckets.le
  have hmaxb : hvMaxBuckets = 1073741824 := by decide
  have hec := hsz.buckets.entryCapacity_le
  exact ⟨keys_le_used wf hst, by omega, by omega, by omega, by omega, by omega⟩

/-- The states that the parts of S_oa_new_entry start in. The saved slot has no influence
on them. -/
def newEntryStates (build : Build) (hv : HV V) : List (HV V) :=
  let hv₁ := stateAfter (oaPackHoles build none) hv
  let hv₂ := stateAfter (oaRelieveIndex build none) hv₁
  let hv₃ := stateAfter (oaGrowCoupled build none) hv₂
  let hv₄ := stateAfter (oaGrowEntries build) hv₃
  [hv, hv₁, hv₂, hv₃, hv₄]

/-- The states that the parts of an insertion start in. A linear vector is promoted when it
is full. -/
def insertionStates (cfg : Config) (hv : HV V) : List (HV V) :=
  let hv₁ := stateAfter (allocateArray cfg) hv
  let hv₂ := if hv₁.isLinear then stateAfter (oaPromote cfg.build) hv₁ else hv₁
  hv :: hv₁ :: newEntryStates cfg.build hv₂

theorem newEntryStates_kept (wf : WF cfg hv) (hst : hv.storage = .indexed oa)
    (hmax : hv.keys < hvMaxKeys) : ∀ hv' ∈ newEntryStates cfg.build hv, Kept cfg hv hv' := by
  obtain ⟨_, h₁, oa₁, hst₁, hg₁, -⟩ := stateAfter_of_returns (oaPackHoles_spec wf hst hmax none)
  have hk₁ := h₁.kept.keys
  obtain ⟨_, h₂, oa₂, hst₂, hg₂, hl₂⟩ :=
    stateAfter_of_returns (oaRelieveIndex_spec h₁.kept.wf hst₁ hg₁ (by omega) none)
  obtain ⟨_, h₃, oa₃, hst₃, hg₃, hl₃⟩ :=
    stateAfter_of_returns (oaGrowCoupled_spec h₂.kept.wf hst₂ hg₂ hl₂ none)
  obtain ⟨_, h₄, -⟩ := stateAfter_of_returns (oaGrowEntries_spec h₃.kept.wf hst₃ hg₃ hl₃ none)
  have hkept₂ := h₁.kept.trans h₂.kept
  have hkept₃ := hkept₂.trans h₃.kept
  simp only [newEntryStates, List.forall_mem_cons, List.not_mem_nil, false_implies, implies_true,
    and_true]
  exact ⟨.refl wf, h₁.kept, hkept₂, hkept₃, hkept₃.trans h₄.kept⟩

theorem insertionStates_kept (wf : WF cfg hv) (hmax : hv.keys < hvMaxKeys) :
    ∀ hv' ∈ insertionStates cfg hv, Kept cfg hv hv' := by
  obtain ⟨-, hroom, hform, -⟩ := stateAfter_of_returns (allocateArray_spec wf none)
  have hkept₁ := hroom.kept
  have hk₁ := hkept₁.keys
  simp only [insertionStates, List.forall_mem_cons]
  refine ⟨.refl wf, hkept₁, ?_⟩
  generalize stateAfter (allocateArray cfg) hv = hv₁ at hform hkept₁ hk₁
  cases hst : hv₁.storage with
  | unallocated n => exact absurd hst (hform n)
  | linear cap es =>
    have hok := hkept₁.wf.storage
    simp only [StorageOk, hst] at hok
    have h8 := cfg.linearMax_le
    have hk := keys_linear hkept₁.wf hst
    obtain ⟨-, hkept₂, oa, hst₂⟩ :=
      stateAfter_of_returns (oaPromote_spec hkept₁.wf (by omega))
    have hlinear : hv₁.isLinear = true := by simp [HV.isLinear, hst]
    rw [if_pos hlinear]
    intro hv' hmem
    have hkept' := newEntryStates_kept hkept₂.wf hst₂ (by rw [hkept₂.keys]; omega) hv' hmem
    exact hkept₁.trans (hkept₂.trans hkept')
  | indexed oa =>
    have hlinear : hv₁.isLinear = false := by simp [HV.isLinear, hst]
    rw [hlinear]
    intro hv' hmem
    exact hkept₁.trans (newEntryStates_kept hkept₁.wf hst (by omega) hv' hmem)

section Runs

variable {svReadonly : V → Bool}

/-- Every call but a clear and a reservation. -/
def Op.churns : Op V → Bool
  | .clear => false
  | .ksplit _ => false
  | _ => true

theorem hvIterinit_bounded (wf : WF cfg hv) (hchains : cfg.build = .chains)
    (hfits : Fits cfg (churnBound N) hv) : Bounded cfg N hv (hvIterinit cfg) := by
  have halloc := allocateArray_bounded wf hchains hfits
  simp only [Bounded, hvIterinit, hvAuxinit, wp_bind, wp_get, wp_ite, wp_modify, wp_pure]
  refine ⟨fun _ => ⟨fun _ => ?_, fun _ => hfits.of_shape rfl⟩, fun _ => ?_⟩
  · exact hfits.of_shape (shape_releaseLazy hv)
  · exact wp_mono halloc (fun _ _ h => h.of_shape rfl) fun _ _ h => h

theorem iterPrepare_bounded (wf : WF cfg hv) (hchains : cfg.build = .chains)
    (hfits : Fits cfg (churnBound N) hv) : Bounded cfg N hv (iterPrepare cfg) := by
  simp only [Bounded, iterPrepare, wp_bind, wp_get, wp_ite, wp_pure]
  exact ⟨fun _ => allocateArray_bounded wf hchains hfits, fun _ => hvIterinit_bounded wf hchains hfits⟩

theorem hvIternextWith_bounded (wf : WF cfg hv) (hchains : cfg.build = .chains)
    (hfits : Fits cfg (churnBound N) hv) {again : HvM V (Option (HE V))}
    (hagain : ∀ hv₁ : HV V, WF cfg hv₁ → Fits cfg (churnBound N) hv₁ → Bounded cfg N hv₁ again)
    (want : Bool) : Bounded cfg N hv (hvIternextWith cfg again want) := by
  have hprepare := wp_and (iterPrepare_spec wf) (iterPrepare_bounded wf hchains hfits)
  have hreset : Preserves (Fits cfg (churnBound N)) (iterReset >>= fun _ => pure none :
      HvM V (Option (HE V))) := preserves_bind iterReset_fits fun _ => preserves_pure _
  rw [Bounded, hvIternextWith, wp_bind]
  refine wp_mono hprepare ?_ fun _ _ h => h.2
  rintro - hv₁ ⟨⟨⟨wf₁, -⟩, -⟩, hfits₁⟩
  obtain ⟨⟨wf₂, hview₂⟩, -⟩ := clearInserted_spec wf₁
  have hfits₂ : Fits cfg (churnBound N) (hv₁.modifyAux fun a => { a with iterInserted := false }) :=
    hfits₁.of_shape rfl
  have hreleased := hfits₂.of_shape (shape_releaseLazy _)
  rw [wp_bind, wp_get, wp_ite]
  refine ⟨fun _ => hreset _ hfits₁, fun _ => ?_⟩
  dsimp only
  rw [wp_bind, wp_modify, wp_ite]
  refine ⟨fun _ => ?_, fun _ => ?_⟩
  · simp only [wp_ite, wp_bind, wp_modify]
    exact ⟨fun _ => hreset _ hreleased, fun _ => hreset _ hfits₂⟩
  · rw [wp_ite]
    refine ⟨fun hpending => ?_, fun _ => iterAdvance_fits want _ hfits₂⟩
    have hl : hv₁.lazydel = true := by
      rw [Bool.and_eq_true] at hpending
      exact hpending.2
    rw [wp_bind, wp_modify]
    exact hagain _ (releaseLazy_spec wf₂ hl).1.1 hreleased

theorem churns_keeps {op : Op V} (h : op.churns = true) (hv : HV V) :
    ¬op.dropsLazy svReadonly hv := by
  cases op <;> simp_all [Op.churns, Op.dropsLazy]

variable [DecidableEq V]

theorem call_bounded {op : Op V} (hop : op.churns = true) (wf : WF cfg hv)
    (hchains : cfg.build = .chains) (hN : hv.keys ≤ N) (hfits : Fits cfg (churnBound N) hv) :
    Bounded cfg N hv (op.call cfg svReadonly) := by
  have hB := churnBound_ge N
  cases op with
  | fetch k =>
    rw [Bounded, Op.call, wp_map]
    refine wp_mono (hvCommon_fetch_spec wf k) ?_ ?_
    · rintro r hv' ⟨rfl, -⟩
      exact hfits
    · rintro e hv' ⟨rfl, -⟩
      exact hfits
  | «exists» k =>
    rw [Bounded, Op.call, wp_map]
    refine wp_of_returns (hvCommon_exists_spec _ wf k) ?_
    rintro r hv' ⟨rfl, -⟩
    exact hfits
  | store k val =>
    rw [Bounded, Op.call, wp_map]
    exact store_bounded hchains _ (hvStore_bounded hchains) hv wf hN hfits k val
  | lvalue k emptyHe sv =>
    rw [Bounded, Op.call, wp_map]
    refine assign_bounded wf hchains hN hfits (hvStore_bounded hchains) k rfl ?_
    intro hv₁ i hek old wf₁ hN₁ hfits₁ hat
    exact foundLvalue_bounded wf₁ hchains hN₁ hfits₁ (hvStore_bounded hchains) k emptyHe sv hat rfl
  | delete k discard =>
    rw [Bounded, Op.call, wp_map]
    exact hvDelete_fits hB svReadonly discard k hv hfits
  | clear => simp [Op.churns] at hop
  | clearPlaceholders =>
    rw [Bounded, Op.call, wp_map]
    exact hvClearPlaceholders_fits hB hv hfits
  | ksplit newmax => simp [Op.churns] at hop
  | iterinit =>
    rw [Bounded, Op.call, wp_map]
    exact hvIterinit_bounded wf hchains hfits
  | iternext want =>
    rw [Bounded, Op.call, wp_map]
    refine hvIternextWith_bounded wf hchains hfits (fun hv₁ wf₁ hfits₁ => ?_) want
    exact hvIternextWith_bounded wf₁ hchains hfits₁ (fun hv₂ _ hfits₂ => preserves_throw _ hv₂ hfits₂) want
  | setReadonly on => exact hfits

/-- A run without reservations keeps the entry array within a bound set by the largest
number of keys, however long it is, and its capacity arithmetic never wraps around. -/
theorem churn_bounded (cfg : Config) (svReadonly : V → Bool) (shareKeys : Bool) (N : Nat)
    (ops : List (Op V)) (hops : ∀ op ∈ ops, op.churns = true)
    (hN : ∀ before, before <+: ops →
      (Op.run cfg svReadonly (newHV shareKeys) before).keys ≤ N) :
    (cfg.build = .chains →
      (Op.run cfg svReadonly (newHV shareKeys) ops).entryCapacity ≤ churnBound N) ∧
    ((Op.run cfg svReadonly (newHV shareKeys) ops).keys < hvMaxKeys →
      ∀ hv ∈ insertionStates cfg (Op.run cfg svReadonly (newHV shareKeys) ops),
        InU32 cfg.build hv) := by
  refine ⟨fun hchains => ?_, fun hmax hv hmem => ?_⟩
  · have hstep : ∀ (hv : HV V) (op : Op V), WF cfg hv ∧ Fits cfg (churnBound N) hv →
        op.churns = true ∧ hv.keys ≤ N →
        WF cfg (stateAfter (op.call cfg svReadonly) hv) ∧
          Fits cfg (churnBound N) (stateAfter (op.call cfg svReadonly) hv) := by
      rintro hv op ⟨wf, hfits⟩ ⟨hop, hkeys⟩
      exact ⟨(wp_stateAfter (call_spec wf (churns_keeps hop hv))).1,
        wp_stateAfter (call_bounded hop wf hchains hkeys hfits)⟩
    have halong : Along (Op.call cfg svReadonly) (fun hv op => op.churns = true ∧ hv.keys ≤ N)
        (newHV shareKeys) ops := by
      refine along_iff.2 fun before op after hsplit => ⟨hops op (by simp [hsplit]), ?_⟩
      exact hN before ⟨op :: after, hsplit.symm⟩
    have hinv := run_invariant (I := fun hv => WF cfg hv ∧ Fits cfg (churnBound N) hv) hstep
      ⟨newHV_wf cfg shareKeys, trivial⟩ halong
    exact hinv.2.capacity_le
  · have hkeep : Op.Keeps cfg svReadonly (newHV shareKeys) ops :=
      along_of_forall (fun hv op hop => churns_keeps hop hv) hops
    have hkept := insertionStates_kept (run_wf (newHV_wf cfg shareKeys) hkeep) hmax hv hmem
    exact inU32_of_wf hkept.wf (by rw [hkept.keys]; exact hmax)

/-- Stores and deletes that keep making holes. -/
def churning : List (Op Nat) :=
  [.store (.bytes [1]) (.sv 10), .store (.bytes [2]) (.sv 20), .delete (.bytes [1]) false,
    .store (.bytes [3]) (.sv 30), .delete (.bytes [2]) false, .store (.bytes [1]) (.sv 40)]

theorem churn_bounded_churning :
    (Op.run (additive .chains 0 (by decide)) (fun _ => false) (newHV true) churning).entryCapacity ≤
        churnBound 2 ∧
      ∀ hv ∈ insertionStates (additive .chains 0 (by decide))
        (Op.run (additive .chains 0 (by decide)) (fun _ => false) (newHV true) churning),
        InU32 .chains hv := by
  have hkeys : ∀ before ∈ churning.inits,
      (Op.run (additive .chains 0 (by decide)) (fun _ => false) (newHV true) before).keys ≤ 2 := by
    decide
  have hbounded := churn_bounded (additive .chains 0 (by decide)) (fun _ : Nat => false) true 2
    churning (by decide) fun before hbefore => hkeys before ((List.mem_inits _ _).2 hbefore)
  exact ⟨hbounded.1 rfl, hbounded.2 (by decide)⟩

end Runs

end XPerl.Hash
