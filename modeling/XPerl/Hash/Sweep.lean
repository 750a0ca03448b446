import XPerl.Hash.Removal

/-! hv_clear_placeholders. -/

namespace XPerl.Hash

open XPerl.Framework XPerl.Framework.Exec

variable {V : Type} {cfg : Config} {hv hv' : HV V} {i : Nat} {k : KeyId} {he : HE V} {hek : HEK}

theorem WF.keys_le_max (wf : WF cfg hv) : hv.keys ≤ hvMaxKeys := by
  have hst := wf.storage
  have h8 := cfg.linearMax_le
  have hmax := hvMaxKeys_eq
  cases hs : hv.storage with
  | unallocated n =>
    rw [keys_unallocated wf hs]
    exact Nat.zero_le _
  | linear cap es =>
    simp only [StorageOk, hs] at hst
    have := keys_linear wf hs
    omega
  | indexed oa => exact (wf.keys_le hs).trans (wf.indexed hs).sized.buckets.entryCapacity_le

theorem toU32_exact (wf : WF cfg hv) (hx : hv.view.Exact) :
    toU32 hv.hvPlaceholdersGet = placeholderCount hv.live := by
  have hle : placeholderCount hv.live ≤ hv.keys := View.placeholderCount_le _ wf.view
  have hmax := wf.keys_le_max
  have heq := hvMaxKeys_eq
  have hget : hv.hvPlaceholdersGet = placeholderCount hv.live := hx
  rw [hget, toU32]
  omega

variable {cap : Nat} {es : List (HE V)} {oa : OA V}

theorem sweepLinearAt_spec (wf : WF cfg hv) (hat : At hv i k ⟨some hek, .placeholder⟩)
    (hs : hv.storage = .linear cap es) :
    WF cfg (((linearRemoveAt hv i).freeKey hek).addPlaceholders (-1)) ∧
      View.Sweeps hv.view (((linearRemoveAt hv i).freeKey hek).addPlaceholders (-1)).view ∧
      ∃ cap', (((linearRemoveAt hv i).freeKey hek).addPlaceholders (-1)).storage =
        .linear cap' (es.eraseIdx i) := by
  obtain ⟨⟨⟨wf₁, hview₁⟩, -, -⟩, cap', hst⟩ := linearRemoveAt_spec wf hat rfl hs
  obtain ⟨wf₂, hview₂⟩ := addPlaceholders_spec wf₁ (-1)
  refine ⟨wf₂, ⟨k, hek, false, hv.hasKFlags, hat.find wf, ?_⟩, cap', hst⟩
  rw [hview₂, hview₁]
  rfl

theorem clearPlaceholdersLinear_spec {fuel toFind : Nat} (wf : WF cfg hv)
    (hs : hv.storage = .linear cap es)
    (hfuel : es.length * (es.length + 1) + (es.length - i) + 1 ≤ fuel) :
    returns (clearPlaceholdersLinear fuel toFind i) hv fun _ hv' =>
      WF cfg hv' ∧ Relation.ReflTransGen View.Sweeps hv.view hv'.view ∧
        (hv.view.Exact → toFind = placeholderCount es →
          (∀ j < i, ∀ he, es[j]? = some he → he.val.isPlaceholder = false) →
          ∀ he ∈ hv'.live, he.val.isPlaceholder = false) := by
  induction fuel generalizing hv toFind i cap es with
  | zero => omega
  | succ fuel ih =>
    have hkeys := keys_linear wf hs
    have hlive : hv.live = es := by
      rw [HV.live, slots_linear hs]
      simp [List.reduceOption]
    simp only [clearPlaceholdersLinear, returns, wp_bind, wp_get, wp_ite, wp_pure, wp_modify]
    refine ⟨fun hstop => ⟨wf, .refl, fun hx hfind hlow he hm => ?_⟩, fun hgo => ?_⟩
    · rcases hstop with h0 | hend
      · refine View.not_placeholder_of_count (v := hv.view) ?_ hm
        show placeholderCount hv.live = 0
        rw [hlive, ← hfind, h0]
      · rw [hlive] at hm
        obtain ⟨j, hj⟩ := List.mem_iff_getElem?.mp hm
        have := (List.getElem?_eq_some_iff.mp hj).1
        exact hlow j (by omega) he hj
    · have hlt : i < es.length := by
        have : ¬hv.keys ≤ i := fun h => hgo (Or.inr h)
        omega
      have hfirst : hv.hvEntryFirst i = some es[i] := by
        rw [hvEntryFirst_linear hs, List.getElem?_eq_getElem hlt]
      obtain ⟨hek, hhek⟩ := wf.hek_of_first hfirst
      have hat : At hv i hek.id es[i] := ⟨hfirst, by simp [HE.id, hhek]⟩
      rw [wp_entryAt hat]
      refine ⟨fun hp => ?_, fun hp => ?_⟩
      · have heq : es[i] = ⟨some hek, .placeholder⟩ := by
          rw [← hhek, ← isPlaceholder_iff.mp hp]
        rw [heq] at hat
        obtain ⟨wf₁, hsweep, cap', hst₁⟩ := sweepLinearAt_spec wf hat hs
        have hlen : (es.eraseIdx i).length = es.length - 1 := List.length_eraseIdx_of_lt hlt
        have hsq : (es.length - 1) * (es.length - 1 + 1) + (es.length - 1) + 1 =
            es.length * es.length := by
          obtain ⟨m, hm⟩ : ∃ m, es.length = m + 1 := ⟨es.length - 1, by omega⟩
          simp only [hm, Nat.add_sub_cancel]
          ring
        have hmul : es.length * (es.length + 1) = es.length * es.length + es.length := by ring
        simp only [hhek, Option.elim_some]
        refine wp_of_returns (ih wf₁ hst₁ (by rw [hlen]; omega)) ?_
        rintro - hv' ⟨wf', hview', hdone⟩
        refine ⟨wf', .head hsweep hview', fun hx _ _ => ?_⟩
        have hx₁ := hx.sweeps wf.view hsweep
        refine hdone hx₁ ?_ (by simp)
        have hlive₁ : HV.live (((linearRemoveAt hv i).freeKey hek).addPlaceholders (-1)) =
            es.eraseIdx i := by
          rw [HV.live, slots_linear hst₁]
          simp [List.reduceOption]
        rw [toU32_exact wf₁ hx₁, hlive₁]
      · refine wp_of_returns (ih wf hs (by omega)) ?_
        rintro - hv' ⟨wf', hview', hdone⟩
        refine ⟨wf', hview', fun hx hfind hlow => hdone hx hfind fun j hj he hget => ?_⟩
        by_cases hji : j = i
        · subst hji
          obtain rfl : es[j] = he := by simpa [List.getElem?_eq_getElem hlt] using hget
          simpa using hp
        · exact hlow j (by omega) he hget

theorem oaDetach_flags (hv : HV V) (i : Nat) (placeholders : Option Int) (flags : Bool) :
    oaDetach { hv with placeholders := placeholders, hasKFlags := flags } i =
      { oaDetach hv i with placeholders := placeholders, hasKFlags := flags } := by
  have hcur : ({ hv with placeholders := placeholders, hasKFlags := flags } : HV V).isCurrent i =
    hv.isCurrent i := rfl
  have hent : ({ hv with placeholders := placeholders, hasKFlags := flags } : HV V).entries =
    hv.entries := rfl
  unfold oaDetach
  rw [hcur]
  cases hv.isCurrent i with
  | true => rfl
  | false =>
    simp only [Bool.false_eq_true, if_false, oaFreeDeleted, hent]
    cases hv.entries[i]?.bind HE.hek <;> rfl

theorem oaDetach_indexed (hs : hv.storage = .indexed oa) (i : Nat) :
    ∃ oa', (oaDetach hv i).storage = .indexed oa' := by
  unfold oaDetach oaFreeDeleted
  cases hv.isCurrent i with
  | true => exact ⟨oa, hs⟩
  | false =>
    cases hv.entries[i]?.bind HE.hek with
    | none => exact ⟨oa, hs⟩
    | some hek =>
      refine ⟨{ oa with entries := hv.entries.modify i fun _ => HE.vacant }, ?_⟩
      simp only [Bool.false_eq_true, if_false, HV.freeKey, HV.modifyEntry, HV.withEntries, hs,
        Storage.withEntries]

/-- What taking a placeholder out of position `i` leaves. -/
structure SweptAt (cfg : Config) (hv : HV V) (i : Nat) (hv' : HV V) : Prop where
  wf : WF cfg hv'
  sweeps : View.Sweeps hv.view hv'.view
  indexed : ∃ oa, hv'.storage = .indexed oa
  first : ∀ j, hv'.hvEntryFirst j = if j = i then none else hv.hvEntryFirst j

theorem sweepIndexedAt_spec (wf : WF cfg hv) (hat : At hv i k ⟨some hek, .placeholder⟩)
    (hs : hv.storage = .indexed oa) {pos : Nat}
    (hrefers : Refers cfg.build oa (hv.homeOf oa) pos i) :
    returns (onOA (oaIndexDeleteUnlessDeleted cfg.build pos)) hv fun _ hv₁ =>
      hv₁.placeholders = hv.placeholders ∧ ∀ flags, SweptAt cfg hv i (oaDetach { hv₁ with
        keys := hv₁.keys - 1, placeholders := some (hv₁.hvPlaceholdersGet + -1)
        hasKFlags := flags } i) := by
  have hx := wf.indexed hs
  rw [returns, wp_onOA hs]
  simp only [oaIndexDeleteUnlessDeleted, wp_bind, wp_get,
    if_neg (indexGet_ne_deleted hx.sized hx.index hrefers)]
  refine wp_of_returns (oaIndexDelete_spec hx.sized (wf.homesIn hs) hx.index hrefers) ?_
  rintro - oa' ⟨hx', hshape, htomb⟩
  refine ⟨trivial, fun flags => ?_⟩
  obtain ⟨⟨⟨wf₁, hview₁⟩, -, -⟩, hfirst⟩ := oaDetach_spec wf hat rfl hs hx' hshape htomb
  have hindexed := oaDetach_indexed
    (rfl : ({ hv with storage := .indexed oa', keys := hv.keys - 1 } : HV V).storage = _) i
  have hflags := oaDetach_flags { hv with storage := .indexed oa', keys := hv.keys - 1 } i
    (some (hv.hvPlaceholdersGet + -1)) flags
  refine (congrArg (SweptAt cfg hv i) hflags).mpr ?_
  set hv₁ := oaDetach { hv with storage := .indexed oa', keys := hv.keys - 1 } i
  have hsame : SameStore hv₁ { hv₁ with
      placeholders := some (hv.hvPlaceholdersGet + -1), hasKFlags := flags } :=
    ⟨rfl, rfl, rfl, rfl, rfl⟩
  have hok := wf₁.view
  refine ⟨hsame.wf wf₁ ⟨hok.heks, hok.keys, hok.distinct, hok.pending, hok.refs⟩,
    ⟨k, hek, true, flags, hat.find wf, ?_⟩, hindexed, fun j => ?_⟩
  · show ({ hv₁.view with placeholders := some (hv.hvPlaceholdersGet + -1), hasKFlags := flags } :
      View V) = _
    rw [hview₁]
    rfl
  · rw [← hfirst j]
    exact congrFun hsame.first j

theorem clearPlaceholderAt_spec (wf : WF cfg hv) (hs : hv.storage = .indexed oa)
    (toFind i : Nat) :
    returns (clearPlaceholderAt cfg toFind i) hv fun toFind' hv' =>
      (hv' = hv ∧ toFind' = toFind ∧
        (toFind ≠ 0 → ∀ he, hv.hvEntryFirst i = some he → he.val.isPlaceholder = false)) ∨
      SweptAt cfg hv i hv' ∧ toFind' + 1 = toFind := by
  simp only [clearPlaceholderAt, returns, wp_bind, wp_get]
  cases hf : hv.hvEntryFirst i with
  | none => exact Or.inl ⟨rfl, rfl, by simp⟩
  | some he =>
    obtain ⟨hek, hhek⟩ := wf.hek_of_first hf
    simp only [hhek, wp_ite, wp_pure]
    refine ⟨fun hskip => Or.inl ⟨trivial, trivial, fun h0 x hx => ?_⟩, fun hfound => ?_⟩
    · obtain rfl := Option.some.inj hx
      exact hskip.resolve_left h0
    · obtain ⟨h0, hp⟩ : toFind ≠ 0 ∧ he.val.isPlaceholder = true := by simpa using hfound
      have hat : At hv i hek.id ⟨some hek, .placeholder⟩ := by
        refine ⟨?_, rfl⟩
        rw [hf, ← hhek, ← isPlaceholder_iff.mp hp]
      rcases oaFind_view wf hek.id with ⟨j, _, _, slot, hat', hfind, hslot⟩ | ⟨_, hnone, -⟩
      · obtain rfl := wf.unique hat.first hat'.first (hat.id.trans hat'.id.symm)
        obtain ⟨pos, rfl, hrefers⟩ := hslot oa hs
        simp only [hfind, wp_bind, wp_modify, wp_pure]
        refine wp_of_returns (sweepIndexedAt_spec wf hat hs hrefers) ?_
        rintro - hv₁ ⟨-, hswept⟩
        exact Or.inr ⟨hswept _, by omega⟩
      · rw [hat.find wf] at hnone
        simp at hnone

theorem clearPlaceholdersIndexed_spec (wf : WF cfg hv) (hs : hv.storage = .indexed oa)
    (is : List Nat) (toFind : Nat) :
    returns (clearPlaceholdersIndexed cfg is toFind) hv fun _ hv' =>
      WF cfg hv' ∧ Relation.ReflTransGen View.Sweeps hv.view hv'.view ∧
        (hv.view.Exact → hv'.view.Exact) ∧ (toFind = placeholderCount hv.live →
          (∀ j ∉ is, ∀ he, hv.hvEntryFirst j = some he → he.val.isPlaceholder = false) →
          ∀ he ∈ hv'.live, he.val.isPlaceholder = false) := by
  induction is generalizing hv oa toFind with
  | nil =>
    refine ⟨wf, .refl, id, fun _ hdone he hm => ?_⟩
    obtain ⟨j, hj⟩ := mem_live.mp hm
    exact hdone j (by simp) he hj
  | cons i is ih =>
    simp only [clearPlaceholdersIndexed, returns, wp_bind]
    refine wp_of_returns (clearPlaceholderAt_spec wf hs toFind i) ?_
    rintro toFind' hv₁ (⟨rfl, rfl, hno⟩ | ⟨hswept, hfind'⟩)
    · refine wp_of_returns (ih wf hs toFind') ?_
      rintro - hv' ⟨wf', hview', hexact, hdone⟩
      refine ⟨wf', hview', hexact, fun hfind hlow => hdone hfind fun j hj he hf => ?_⟩
      by_cases h0 : toFind' = 0
      · exact View.not_placeholder_of_count (v := hv₁.view) (hfind.symm.trans h0)
          (mem_live.mpr ⟨j, hf⟩)
      · by_cases hji : j = i
        · exact hno h0 he (hji ▸ hf)
        · exact hlow j (by simp [hji, hj]) he hf
    · obtain ⟨oa₁, hs₁⟩ := hswept.indexed
      refine wp_of_returns (ih hswept.wf hs₁ toFind') ?_
      rintro - hv' ⟨wf', hview', hexact, hdone⟩
      refine ⟨wf', .head hswept.sweeps hview',
        fun hx => hexact (hx.sweeps wf.view hswept.sweeps), fun hfind hlow => hdone ?_ fun j hj he hf => ?_⟩
      · have hcount : placeholderCount hv₁.live + 1 = placeholderCount hv.live :=
          hswept.sweeps.count wf.view
        omega
      · rw [hswept.first] at hf
        split at hf
        · simp at hf
        · rename_i hji
          exact hlow j (by simp [hji, hj]) he hf

theorem hvClearPlaceholders_spec (wf : WF cfg hv) :
    returns (hvClearPlaceholders cfg) hv fun _ hv' =>
      (∃ v placeholders flags, Relation.ReflTransGen View.Sweeps hv.view v ∧
        Shows cfg hv' { v with placeholders := placeholders, hasKFlags := flags }) ∧
      (hv.view.Exact → hv'.view.Exact ∧ ∀ he ∈ hv'.live, he.val.isPlaceholder = false) := by
  have hzero : ∀ hv₁ : HV V, WF cfg hv₁ → ∀ flags, (∀ he ∈ hv₁.live, he.val.isPlaceholder = false) →
      ({ hv₁ with placeholders := hv₁.placeholders.map fun _ => 0, hasKFlags := flags } :
        HV V).view.Exact := by
    intro hv₁ wf₁ flags hno
    have hcount := View.placeholderCount_eq_zero (v := hv₁.view) hno
    show (hv₁.placeholders.map fun _ => (0 : Int)).getD 0 = (placeholderCount hv₁.view.live : Int)
    rw [hcount]
    cases hv₁.placeholders <;> rfl
  simp only [hvClearPlaceholders, returns, wp_bind, wp_get, wp_ite, wp_pure]
  refine ⟨fun h0 => ⟨⟨hv.view, _, _, .refl, wf, rfl⟩, fun hx => ⟨hx, fun he hm => ?_⟩⟩, fun _ => ?_⟩
  · rw [toU32_exact wf hx] at h0
    exact View.not_placeholder_of_count (v := hv.view) h0 hm
  · cases hs : hv.storage with
    | unallocated n =>
      simp only [wp_modify, hvPlaceholdersSet_zero]
      have hlive : hv.live = [] :=
        List.eq_nil_of_length_eq_zero (wf.keys_eq.symm.trans (keys_unallocated wf hs))
      have hno : ∀ he ∈ hv.live, he.val.isPlaceholder = false := by simp [hlive]
      exact ⟨⟨hv.view, _, _, .refl, setCounts_spec wf _ hv.hasKFlags⟩,
        fun _ => ⟨hzero hv wf hv.hasKFlags hno, hno⟩⟩
    | linear cap es =>
      have hlive : hv.live = es := by
        rw [HV.live, slots_linear hs]
        simp [List.reduceOption]
      have hfuel : es.length * (es.length + 1) + (es.length - 0) + 1 ≤
          (hv.keys + 1) * (hv.keys + 1) + 1 := by
        rw [keys_linear wf hs, Nat.sub_zero]
        ring_nf
        omega
      simp only [wp_bind, wp_modify, hvPlaceholdersSet_zero]
      refine wp_of_returns (clearPlaceholdersLinear_spec wf hs hfuel) ?_
      rintro - hv₁ ⟨wf₁, hview₁, hdone⟩
      refine ⟨⟨_, _, _, hview₁, setCounts_spec wf₁ _ _⟩, fun hx => ?_⟩
      have hno := hdone hx (by rw [toU32_exact wf hx, hlive]) (by simp)
      exact ⟨hzero hv₁ wf₁ _ hno, hno⟩
    | indexed oa =>
      refine wp_of_returns (clearPlaceholdersIndexed_spec wf hs _ _) ?_
      rintro - hv₁ ⟨wf₁, hview₁, hexact, hdone⟩
      refine ⟨⟨_, _, _, hview₁, wf₁, rfl⟩, fun hx => ⟨hexact hx, ?_⟩⟩
      refine hdone (toU32_exact wf hx) fun j hj he hf => ?_
      have hlt := lt_of_first hf
      rw [HV.hvEntryLimit, entries_indexed hs] at hlt
      exact absurd (List.mem_range.mpr hlt) hj

end XPerl.Hash
