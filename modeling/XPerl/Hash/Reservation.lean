import XPerl.Hash.Insertion

/-! Reservation of storage for an expected number of keys. -/

namespace XPerl.Hash

open XPerl.Framework XPerl.Framework.Exec

variable {V : Type}

def ksplitSize (wantsize : Nat) : Nat → Nat → Option Nat
  | 0, _ => none
  | fuel + 1, newsize =>
    if wantsize > newsize then
      if newsize ≥ hvMaxBuckets then none else ksplitSize wantsize fuel (newsize * 2)
    else some newsize

def ksplitLinear (linearMax newmax : Nat) : Nat → Nat → Option Nat
  | 0, capacity => if capacity < newmax then none else some capacity
  | fuel + 1, capacity =>
    if capacity < newmax then
      let next := min (capacity * 2) linearMax
      if next ≤ capacity ∨ next > 63 then none else ksplitLinear linearMax newmax fuel next
    else some capacity

/-- Entry capacity that the final size check of hv_ksplit covers. -/
def ksplitEntries (hv : HV V) (newmax : Nat) : Nat :=
  match hv.storage with
  | .indexed oa =>
    max (if newmax > hv.keys then newmax + (oa.used - hv.keys) else newmax) oa.capacity
  | _ => newmax

/-- Last part of hv_ksplit: entry storage for the requested count. -/
def ksplitReserve (build : Build) (newmax : Nat) : HvM V Unit := do
  let hv ← get
  match hv.storage with
  | .indexed oa =>
    if (build = .chains ∨ oa.buckets > oaCoupledMax) ∧ newmax > hv.keys then
      let capacity := oa.used + newmax - hv.keys
      throwIf (capacity ≥ u32Max) .memoryWrap
      onOA (oaReserveEntries build capacity)
    else pure ()
  | _ => pure ()

def hvKsplit (cfg : Config) (newmax : Int) : HvM V Unit := do
  let hv ← get
  if newmax ≤ 0 then pure ()
  else
    let n := newmax.toNat
    throwIf (n > hvMaxKeys) .hashCapacityExceeded
    if n ≤ cfg.linearMax ∧ (hv.arrayNull || hv.isLinear) = true ∧ cfg.linearEnabled = true then
      match ksplitLinear cfg.linearMax n n (if hv.arrayNull then 1 else hv.bucketCount) with
      | none => throw .memoryWrap
      | some capacity => linearReserve capacity
    else
      let oldsize := if hv.isLinear then 8 else hv.bucketCount
      match ksplitSize (n + n / 2 + n % 2) 31 oldsize with
      | none => throw .hashCapacityExceeded
      | some newsize =>
        let entries := ksplitEntries hv n
        throwIf (entries > u32Max ∨ hvOaSizeValid cfg.build newsize entries = false) .memoryWrap
        if hv.isLinear = false ∧ newsize ≤ oldsize ∧ hv.arrayNull = false then pure ()
        else oaIndexResize cfg.build newsize
        ksplitReserve cfg.build n

variable {cfg : Config} {hv : HV V}

theorem ksplitSize_spec {wantsize : Nat} : ∀ {fuel size newsize : Nat}, IsBucketCount size →
    ksplitSize wantsize fuel size = some newsize →
    IsBucketCount newsize ∧ size ≤ newsize ∧ wantsize ≤ newsize := by
  intro fuel
  induction fuel with
  | zero => intro size newsize _ h; simp [ksplitSize] at h
  | succ fuel ih =>
    intro size newsize hb h
    unfold ksplitSize at h
    split_ifs at h with hw hmax
    · obtain ⟨h1, h2, h3⟩ := ih (hb.double (by omega)) h
      exact ⟨h1, by omega, h3⟩
    · obtain rfl := Option.some.inj h
      exact ⟨hb, le_refl _, by omega⟩

theorem ksplitLinear_le {linearMax newmax : Nat} : ∀ {fuel capacity c : Nat}, capacity ≤ linearMax →
    ksplitLinear linearMax newmax fuel capacity = some c → capacity ≤ c ∧ c ≤ linearMax := by
  intro fuel
  induction fuel with
  | zero =>
    intro capacity c hc h
    unfold ksplitLinear at h
    split_ifs at h
    obtain rfl := Option.some.inj h
    exact ⟨le_refl _, hc⟩
  | succ fuel ih =>
    intro capacity c hc h
    unfold ksplitLinear at h
    dsimp only at h
    split_ifs at h with h1 h2
    · obtain ⟨h3, h4⟩ := ih (Nat.min_le_right _ _) h
      exact ⟨by omega, h4⟩
    · obtain rfl := Option.some.inj h
      exact ⟨le_refl _, hc⟩

theorem linearReserve_spec (wf : WF cfg hv) (hs : ∀ oa, hv.storage ≠ .indexed oa)
    (hlin : cfg.linearEnabled = true) {capacity : Nat} (hmax : capacity ≤ cfg.linearMax) :
    returns (linearReserve capacity) hv fun _ hv' => Kept cfg hv hv' := by
  simp only [linearReserve, returns, wp_modify]
  cases hst : hv.storage with
  | indexed oa => exact absurd hst (hs oa)
  | linear cap es =>
    dsimp only
    split_ifs with hle
    · exact .refl wf
    · have hstore := wf.storage
      simp only [StorageOk, hst] at hstore
      exact linearResize_spec wf hst (by omega) hmax
  | unallocated n =>
    dsimp only
    exact linear_of_unallocated wf hst hlin hmax

theorem ksplitReserve_spec (wf : WF cfg hv) (newmax : Nat) :
    wp (ksplitReserve cfg.build newmax) hv (fun _ hv' => Kept cfg hv hv')
      (fun _ hv' => Kept cfg hv hv') := by
  simp only [ksplitReserve, wp_bind, wp_get]
  cases hs : hv.storage with
  | unallocated n => exact .refl wf
  | linear cap es => exact .refl wf
  | indexed oa =>
    simp only [wp_ite, wp_bind, wp_throwIf, wp_pure]
    refine ⟨fun _ => ⟨fun _ => .refl wf, fun _ => ?_⟩, fun _ => .refl wf⟩
    by_cases hc : oa.used + newmax - hv.keys ≤ i32Max
    · exact wp_of_returns (reserveEntries_spec wf hs hc) fun _ _ h => (h.1 none).kept
    · have hinv : hvOaSizeValid cfg.build oa.buckets (oa.used + newmax - hv.keys) = false := by
        by_contra h
        exact hc (le_of_hvOaSizeValid (eq_true_of_ne_false h))
      have hle := (wf.indexed hs).sized.le_max
      rw [wp_onOA hs]
      simp only [oaReserveEntries, wp_bind, wp_get, wp_ite, wp_throwIf, hinv]
      refine ⟨fun h => by omega, fun _ => ⟨fun _ => ?_, fun h => absurd trivial h⟩⟩
      rw [← hs]
      exact .refl wf

theorem hvKsplit_spec (wf : WF cfg hv) (newmax : Int) :
    wp (hvKsplit cfg newmax) hv (fun _ hv' => Kept cfg hv hv') (fun _ hv' => Kept cfg hv hv') := by
  have hkeep := Kept.refl wf
  have hst := wf.storage
  simp only [hvKsplit, wp_bind, wp_get, wp_ite, wp_pure, wp_throwIf]
  refine ⟨fun _ => hkeep, fun hpos => ⟨fun _ => hkeep, fun hn => ⟨fun hlinear => ?_,
    fun hother => ?_⟩⟩⟩
  · obtain ⟨hlm, hform, hlin⟩ := hlinear
    have hne : cfg.linearMax ≠ 0 := by simpa [Config.linearEnabled] using hlin
    have hstart : (if hv.arrayNull then 1 else hv.bucketCount) ≤ cfg.linearMax := by
      cases hs : hv.storage with
      | unallocated n => simp [HV.arrayNull, hs]; omega
      | indexed oa => simp [HV.arrayNull, HV.isLinear, hs] at hform
      | linear cap es =>
        simp only [StorageOk, hs] at hst
        simp only [HV.arrayNull, HV.bucketCount, hs, beq_iff_eq]
        split_ifs <;> omega
    cases hc : ksplitLinear cfg.linearMax newmax.toNat newmax.toNat
        (if hv.arrayNull then 1 else hv.bucketCount) with
    | none => exact hkeep
    | some capacity =>
      refine wp_of_returns (linearReserve_spec wf ?_ hlin (ksplitLinear_le hstart hc).2)
        fun _ _ h => h
      intro oa hs
      simp [HV.arrayNull, HV.isLinear, hs] at hform
  · have hold : IsBucketCount (if hv.isLinear then 8 else hv.bucketCount) := by
      cases hs : hv.storage with
      | unallocated n =>
        simp only [StorageOk, hs] at hst
        simpa [HV.isLinear, HV.bucketCount, hs] using hst.1
      | linear cap es => simpa [HV.isLinear, hs] using isBucketCount_eight
      | indexed oa => simpa [HV.isLinear, HV.bucketCount, hs] using (wf.indexed hs).sized.buckets
    cases hc : ksplitSize (newmax.toNat + newmax.toNat / 2 + newmax.toNat % 2) 31
        (if hv.isLinear then 8 else hv.bucketCount) with
    | none => exact hkeep
    | some newsize =>
      obtain ⟨hb, hge, hwant⟩ := ksplitSize_spec hold hc
      have hroom : hv.keys ≤ oaEntryCapacity newsize := by
        cases hs : hv.storage with
        | unallocated n => rw [keys_unallocated wf hs]; exact Nat.zero_le _
        | linear cap es =>
          simp only [StorageOk, hs] at hst
          have hk := keys_linear wf hs
          have hlin : cfg.linearEnabled = true := by
            simpa [Config.linearEnabled] using hst.1
          have : ¬newmax.toNat ≤ cfg.linearMax := fun h =>
            hother ⟨h, by simp [HV.isLinear, hs], hlin⟩
          unfold oaEntryCapacity
          omega
        | indexed oa =>
          have hk := wf.keys_le hs
          have hbk : oa.buckets ≤ newsize := by
            simpa [HV.isLinear, HV.bucketCount, hs] using hge
          exact hk.trans (oaEntryCapacity_mono hbk)
      simp only [wp_bind, wp_throwIf, wp_ite]
      refine ⟨fun _ => hkeep, fun _ => ⟨fun _ => ksplitReserve_spec wf _, fun _ => ?_⟩⟩
      refine wp_of_returns (oaIndexResize_spec wf hb hroom) ?_
      rintro - hv' ⟨hkept, -⟩
      exact wp_mono (ksplitReserve_spec hkept.wf _) (fun _ _ h => hkept.trans h)
        fun _ _ h => hkept.trans h

end XPerl.Hash
