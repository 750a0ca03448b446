import XPerl.Hash.Run

/-! Slots of the open-addressed entry index over whole runs. -/

namespace XPerl.Hash

open XPerl.Framework XPerl.Framework.Exec

variable {V : Type} {cfg : Config} {build : Build} {hv hv' : HV V} {oa : OA V} {slot : Option Nat}
  {q : Query} {val : HeVal V} {i : Nat} {hash : UInt32}

/-! The saved slot decides nothing but where the new entry is indexed. -/

theorem oaPackHoles_forget (build : Build) (slot : Option Nat) :
    ((fun _ => none) <$> oaPackHoles build slot : HvM V (Option Nat)) = oaPackHoles build none := by
  unfold oaPackHoles
  rw [map_bind]
  refine bind_congr fun hv => ?_
  split
  · dsimp only
    split <;> simp
  · rfl

theorem oaRelieveIndex_forget (build : Build) (slot : Option Nat) :
    ((fun _ => none) <$> oaRelieveIndex build slot : HvM V (Option Nat)) =
      oaRelieveIndex build none := by
  unfold oaRelieveIndex
  rw [map_bind]
  refine bind_congr fun hv => ?_
  split
  · cases build with
    | chains => dsimp only; split <;> simp
    | oa =>
      dsimp only
      split
      · split <;> simp
      · simp
  · rfl

theorem oaGrowCoupled_forget (build : Build) (slot : Option Nat) :
    ((fun _ => none) <$> oaGrowCoupled build slot : HvM V (Option Nat)) =
      oaGrowCoupled build none := by
  unfold oaGrowCoupled
  rw [map_bind]
  refine bind_congr fun hv => ?_
  split
  · split <;> simp
  · rfl

theorem oaFitPositions_forget (build : Build) (slot : Option Nat) :
    ((fun _ => none) <$> oaFitPositions build slot : HvM V (Option Nat)) =
      oaFitPositions build none := by
  unfold oaFitPositions
  rw [map_bind]
  refine bind_congr fun hv => ?_
  split
  · split <;> simp
  · rfl

theorem oaNewEntry_forget (build : Build) (slot : Option Nat) :
    (Prod.fst <$> oaNewEntry build slot : HvM V Nat) = Prod.fst <$> oaNewEntry build none := by
  simp only [oaNewEntry, map_bind, map_pure]
  refine bind_forget (oaPackHoles_forget build slot) fun s => ?_
  refine bind_forget (oaRelieveIndex_forget build s) fun s => ?_
  refine bind_forget (oaGrowCoupled_forget build s) fun s => ?_
  refine bind_congr fun _ => ?_
  exact bind_forget (oaFitPositions_forget build s) fun _ => rfl

theorem newEntry_forget (cfg : Config) (slot : Option Nat) :
    (Prod.fst <$> newEntry cfg slot : HvM V Nat) = Prod.fst <$> newEntry cfg none := by
  unfold newEntry
  simp only [map_bind]
  refine bind_congr fun hv => ?_
  split
  · rfl
  · exact oaNewEntry_forget cfg.build slot

theorem indexNewEntry_saved (hs : hv.storage = .indexed oa) (hsz : Sized build oa)
    (hi : i < oa.used)
    (hsaved : ∀ pos, slot = some pos → build = .oa ∧
      ProbeTable.freeSlot (oaCells oa) (bucketOf hash oa.buckets) = some pos) :
    (indexNewEntry build i hash slot).run hv = (onOA (oaIndexInsert build i hash)).run hv := by
  refine run_eq_of_wp fun Q E => ?_
  simp only [indexNewEntry, wp_bind, wp_get, hs]
  cases slot with
  | none => cases build <;> rfl
  | some pos =>
    obtain ⟨rfl, hfree⟩ := hsaved pos rfl
    dsimp only
    rw [wp_onOA hs, wp_onOA hs]
    exact (oaIndexInsert_eq_put hsz hi hfree).symm

theorem indexNewEntry_fresh (wf : WF cfg hv) (hf : Fresh cfg hv i) (next : Nat) (he : HE V)
    (hsaved : SavedSlot cfg.build hv hash slot) :
    (indexNewEntry cfg.build i hash slot).run (({ hv with nextRef := next } : HV V).putNew i he) =
      (indexNewEntry cfg.build i hash none).run (({ hv with nextRef := next } : HV V).putNew i he) := by
  cases hs : hv.storage with
  | unallocated n => simp [Fresh, hs] at hf
  | linear cap es =>
    refine run_eq_of_wp fun Q E => ?_
    simp [indexNewEntry, HV.putNew, HV.withEntries, Storage.withEntries]
  | indexed oa =>
    have hused : oa.used = i + 1 := by
      have := hf
      simp only [Fresh, hs] at this
      exact this.1
    have hused' : i < ({ oa with entries := oa.entries.set i he } : OA V).used := by
      simp only [OA.used, List.length_set] at hused ⊢
      omega
    have hsz := (wf.indexed hs).sized.set i he
    rw [← hs, hf.putNew_indexed hs]
    rw [indexNewEntry_saved rfl hsz hused' fun pos hpos => ?_,
      indexNewEntry_saved rfl hsz hused' (by simp)]
    obtain ⟨oa', ho, hb, hfree⟩ := hsaved pos hpos
    obtain rfl : oa = oa' := by simpa [hs] using ho
    exact ⟨hb, hfree⟩

theorem insertEntry_saved (wf : WF cfg hv) (hmax : hv.keys < hvMaxKeys)
    (hsaved : SavedSlot cfg.build hv q.hash slot) (val : HeVal V) :
    (insertEntry cfg q val slot).run hv = (insertEntry cfg q val none).run hv := by
  have halloc := wp_mono (allocateArray_spec wf slot) (fun _ _ h => h) fun _ _ _ => trivial
  unfold insertEntry
  refine run_bind_congr (f := id) rfl halloc halloc ?_
  rintro - - hv₁ - ⟨hroom₁, hform₁, -⟩ -
  have hk₁ := hroom₁.kept.keys
  have hnew := fun slot => newEntry_spec hroom₁.kept.wf hform₁ (by omega) slot
  refine run_bind_congr (newEntry_forget cfg slot)
    (wp_mono (hnew slot) (fun _ _ h => h) fun _ _ _ => trivial)
    (wp_mono (hnew none) (fun _ _ h => h) fun _ _ _ => trivial) ?_
  rintro ⟨i, slot'⟩ ⟨-, slot''⟩ hv₂ rfl ⟨hroom₂, hfresh⟩ ⟨hroom₂', -⟩
  have hhek : wp (newHek q) hv₂ (fun _ hv₃ => hv₃ = { hv₂ with nextRef := hv₂.nextRef + 1 })
      fun _ _ => True := by
    rw [wp_newHek]
    exact ⟨fun _ => trivial, fun _ => rfl⟩
  refine run_bind_congr (f := id) rfl hhek hhek ?_
  rintro hek - - rfl rfl -
  have wf₂ := hroom₂.kept.wf
  have hindex : (indexNewEntry cfg.build i q.hash slot').run _ =
      (indexNewEntry cfg.build i q.hash slot'').run _ :=
    (indexNewEntry_fresh wf₂ hfresh (hv₂.nextRef + 1) ⟨some hek, val⟩
      (hroom₂.saved _ (hroom₁.saved _ hsaved))).trans
    (indexNewEntry_fresh wf₂ hfresh (hv₂.nextRef + 1) ⟨some hek, val⟩
      (hroom₂'.saved _ (by simp [SavedSlot]))).symm
  simp only [id_eq, run_modify_bind]
  rw [run_bind (indexNewEntry cfg.build i q.hash slot'),
    run_bind (indexNewEntry cfg.build i q.hash slot''), hindex]

/-- What probing relies on. -/
structure SlotsExact (cfg : Config) (hv : HV V) (oa : OA V) : Prop where
  tombstones : oa.tombstones = ProbeTable.deletedCount (oaCells oa)
  path : ∀ i he hek, hv.hvEntryFirst i = some he → he.hek = some hek → ∃ d < oa.buckets,
    (oaCells oa)[ProbeTable.probe (oaCells oa) (bucketOf hek.hash oa.buckets) d]? = some (.full i) ∧
      ∀ e < d, (oaCells oa)[ProbeTable.probe (oaCells oa) (bucketOf hek.hash oa.buckets) e]? ≠
        some .empty
  empty : ∃ p : Nat, (oaCells oa)[p]? = some .empty
  distinct : ∀ (p p' : Nat) i, (oaCells oa)[p]? = some (.full i) →
    (oaCells oa)[p']? = some (.full i) → p = p'
  saved : ∀ q val slot, hv.keys < hvMaxKeys → oaFind cfg.build hv q.id = some ⟨none, slot⟩ →
    (insertEntry cfg q val slot).run hv = (insertEntry cfg q val none).run hv

theorem WF.slotsExact (wf : WF cfg hv) (hb : cfg.build = .oa) (hs : hv.storage = .indexed oa) :
    SlotsExact cfg hv oa := by
  have hx : SlotsOk oa (hv.homeOf oa) := by
    have := (wf.indexed hs).index
    rwa [hb] at this
  refine ⟨hx.tombstones.symm, fun i he hek hfirst hhek => ?_, wf.room hs hb, fun p p' i => hx.index.inj,
    fun q val slot hmax hfind => ?_⟩
  · have hlen : (oaCells oa).length = oa.buckets := (oaCells_length oa).trans hx.length
    have hhome : hv.homeOf oa i = some (bucketOf hek.hash oa.buckets) := by
      simp [HV.homeOf, hfirst, hhek]
    obtain ⟨d, hd, hfull, hpath⟩ := hx.index.path hhome
    exact ⟨d, by omega, hfull, hpath⟩
  · refine insertEntry_saved wf hmax ?_ val
    rcases oaFind_spec wf q.id with ⟨i, he, slot', -, -, hfind', -⟩ | ⟨slot', -, hfind', hsaved⟩
    · simp [hfind] at hfind'
    · obtain rfl : slot = slot' := by simpa [hfind] using hfind'
      exact hsaved

variable [DecidableEq V] {svReadonly : V → Bool} {shareKeys : Bool} {ops : List (Op V)}

/-- The probe invariant holds in every state of a run in which no clear of a restricted hash
forgets a lazily deleted entry. -/
theorem slots_of_run (hb : cfg.build = .oa) (hkeep : Op.Keeps cfg svReadonly (newHV shareKeys) ops)
    (hs : (Op.run cfg svReadonly (newHV shareKeys) ops).storage = .indexed oa) :
    SlotsExact cfg (Op.run cfg svReadonly (newHV shareKeys) ops) oa :=
  (run_wf (newHV_wf cfg shareKeys) hkeep).slotsExact hb hs

/-- The index of the small run: the slot of the deleted key is a tombstone. -/
def deletedSlotOa (val : HeVal Nat) : OA Nat where
  entries := [⟨some ⟨1, [1], false, false, false, 0⟩, .null⟩, ⟨some ⟨2, [2], false, false, false, 1⟩, val⟩]
  buckets := 8
  capacity := 5
  tombstones := 1
  indices := [0, 255, 2, 0, 0, 0, 0, 0]

theorem slots_of_delete_under_iterator :
    SlotsExact (additive .oa 0 (by decide)) (Op.run (additive .oa 0 (by decide)) (fun _ => false)
      (newHV true) deleteUnderIterator) (deletedSlotOa (.sv 20)) :=
  slots_of_run rfl (by decide +kernel) (by decide +kernel)

/-- A clear of the restricted hash leaves the deleted entry in the array as a live one that no
slot leads to. -/
theorem slots_after_restricted_clear :
    (Op.run (additive .oa 0 (by decide)) (fun _ => false) (newHV true)
      (deleteUnderIterator ++ [.setReadonly true, .clear])).storage =
        .indexed (deletedSlotOa .placeholder) ∧
    ¬SlotsExact (additive .oa 0 (by decide)) (Op.run (additive .oa 0 (by decide)) (fun _ => false)
      (newHV true) (deleteUnderIterator ++ [.setReadonly true, .clear]))
      (deletedSlotOa .placeholder) := by
  refine ⟨by decide +kernel, fun h => ?_⟩
  have hlive : (Op.run (additive .oa 0 (by decide)) (fun _ => false) (newHV true)
      (deleteUnderIterator ++ [.setReadonly true, .clear])).hvEntryFirst 0 =
        some ⟨some ⟨1, [1], false, false, false, 0⟩, .null⟩ := by
    decide +kernel
  obtain ⟨d, hd, hfull, -⟩ := h.path 0 _ _ hlive rfl
  have hnone : ∀ d < 8, (oaCells (deletedSlotOa .placeholder))[ProbeTable.probe
      (oaCells (deletedSlotOa .placeholder)) (bucketOf 1 8) d]? ≠ some (.full 0) := by
    decide +kernel
  exact hnone d hd hfull

end XPerl.Hash
