import XPerl.Hash.Run

/-! How much the entry storage takes, and the steps of a call that never make it take more. -/

namespace XPerl.Hash

open XPerl.Framework XPerl.Framework.Exec

variable {V : Type} {cfg : Config} {hv hv' : HV V} {B : Nat}

/-- How many entries the storage takes, and whether it is a linear vector. -/
def Storage.shape (st : Storage V) : Option (Bool × Nat) :=
  match st with
  | .unallocated _ => none
  | .linear cap _ => some (true, cap)
  | .indexed oa => some (false, oa.capacity)

/-- Capacity of the entry storage. -/
def HV.entryCapacity (hv : HV V) : Nat := (hv.storage.shape.map Prod.snd).getD 0

/-- Storage for at most so many entries. -/
def Fits (cfg : Config) (B : Nat) (hv : HV V) : Prop :=
  match hv.storage.shape with
  | none => True
  | some (isLinear, capacity) => (isLinear = true → cfg.linearEnabled = true) ∧ capacity ≤ B

theorem Fits.of_shape (h : Fits cfg B hv) (hs : hv'.storage.shape = hv.storage.shape) :
    Fits cfg B hv' := by
  rw [Fits, hs]
  exact h

theorem Fits.capacity_le (h : Fits cfg B hv) : hv.entryCapacity ≤ B := by
  unfold Fits at h
  unfold HV.entryCapacity
  cases hs : hv.storage.shape with
  | none => simp
  | some p => simp only [hs] at h; exact h.2

theorem fits_indexed {oa : OA V} (hst : hv.storage = .indexed oa) :
    Fits cfg B hv ↔ oa.capacity ≤ B := by
  simp [Fits, hst, Storage.shape]

@[simp] theorem shape_withEntries (st : Storage V) (es : List (HE V)) :
    (st.withEntries es).shape = st.shape := by
  cases st <;> rfl

@[simp] theorem storage_modifyAux (hv : HV V) (f : Aux V → Aux V) :
    (hv.modifyAux f).storage = hv.storage := rfl

@[simp] theorem shape_modifyEntry (hv : HV V) (i : Nat) (f : HE V → HE V) :
    (hv.modifyEntry i f).storage.shape = hv.storage.shape := shape_withEntries _ _

@[simp] theorem shape_setVal (hv : HV V) (i : Nat) (val : HeVal V) :
    (hv.setVal i val).storage.shape = hv.storage.shape := shape_withEntries _ _

@[simp] theorem shape_setHek (hv : HV V) (i : Nat) (hek : HEK) :
    (hv.setHek i hek).storage.shape = hv.storage.shape := shape_withEntries _ _

@[simp] theorem shape_putNew (hv : HV V) (i : Nat) (he : HE V) :
    (hv.putNew i he).storage.shape = hv.storage.shape := shape_withEntries _ _

@[simp] theorem storage_freeKey (hv : HV V) (hek : HEK) :
    (hv.freeKey hek).storage = hv.storage := rfl

@[simp] theorem storage_addPlaceholders (hv : HV V) (n : Int) :
    (hv.addPlaceholders n).storage = hv.storage := rfl

@[simp] theorem storage_hvPlaceholdersSet (hv : HV V) (n : Int) :
    (hv.hvPlaceholdersSet n).storage = hv.storage := by
  unfold HV.hvPlaceholdersSet
  cases hv.placeholders with
  | none => dsimp only; split_ifs <;> rfl
  | some p => rfl

@[simp] theorem shape_oaFreeDeleted (hv : HV V) (i : Nat) :
    (oaFreeDeleted hv i).storage.shape = hv.storage.shape := by
  unfold oaFreeDeleted
  cases hv.entries[i]?.bind HE.hek with
  | none => rfl
  | some hek => simp

@[simp] theorem shape_oaDetach (hv : HV V) (i : Nat) :
    (oaDetach hv i).storage.shape = hv.storage.shape := by
  unfold oaDetach
  split_ifs
  · rfl
  · exact shape_oaFreeDeleted hv i

@[simp] theorem shape_freeLazy (hv : HV V) (e : EIter V) :
    (freeLazy hv e).storage.shape = hv.storage.shape := by
  cases e with
  | slot i => exact shape_oaFreeDeleted hv i
  | retired he => cases hhek : he.hek <;> simp [freeLazy, hhek]

@[simp] theorem shape_releaseLazy (hv : HV V) :
    (releaseLazy hv).storage.shape = hv.storage.shape := by
  unfold releaseLazy
  cases hv.eiter with
  | none => rfl
  | some e => simp

theorem fits_linearRemoveAt (h8 : 8 ≤ B) (h : Fits cfg B hv) (i : Nat) :
    Fits cfg B (linearRemoveAt hv i) := by
  cases hs : hv.storage with
  | unallocated n => simpa [linearRemoveAt, hs] using h
  | indexed oa => simpa [linearRemoveAt, hs] using h
  | linear cap es =>
    simp only [Fits, hs, Storage.shape] at h
    simp only [Fits, linearRemoveAt, hs, Storage.shape]
    refine ⟨h.1, ?_⟩
    split_ifs <;> omega

section Index

abbrev KeepsCapacity (c : Nat) {α : Type} (m : OaM V α) : Prop :=
  Preserves (fun oa => oa.capacity = c) m

variable {build : Build} {c : Nat}

theorem oaTakeSlot_keeps (pos : Nat) : KeepsCapacity c (oaTakeSlot pos : OaM V Unit) := by
  refine preserves_modify fun oa h => ?_
  split_ifs
  · exact h
  · exact h

theorem oaPutSlot_keeps (pos i : Nat) : KeepsCapacity c (oaPutSlot pos i : OaM V Unit) :=
  preserves_bind (oaTakeSlot_keeps pos) fun _ => preserves_modify fun _ h => h

theorem oaIndexInsert_keeps (i : Nat) (hash : UInt32) :
    KeepsCapacity c (oaIndexInsert build i hash : OaM V Unit) := by
  refine preserves_bind preserves_get fun oa => ?_
  cases build with
  | chains => exact preserves_bind (preserves_modify fun _ h => h) fun _ => preserves_modify fun _ h => h
  | oa =>
    dsimp only
    split
    · exact preserves_throw _
    · refine preserves_bind (oaTakeSlot_keeps _) fun _ => preserves_bind (preserves_throwIf _ _) fun _ => ?_
      exact preserves_modify fun _ h => h

theorem oaIndexDelete_keeps (pos : Nat) :
    KeepsCapacity c (oaIndexDelete build pos : OaM V Unit) := by
  cases build with
  | chains =>
    refine preserves_bind preserves_get fun oa => ?_
    exact preserves_bind (preserves_modify fun _ h => h) fun _ => preserves_modify fun _ h => h
  | oa => exact preserves_bind (preserves_modify fun _ h => h) fun _ => preserves_modify fun _ h => h

theorem onOA_fits {α : Type} {m : OaM V α} (h : ∀ c, KeepsCapacity c m) :
    Preserves (Fits cfg B) (onOA m : HvM V α) := by
  intro hv hfits
  cases hs : hv.storage with
  | unallocated n => simpa [wp, onOA, EStateM.run, hs] using hfits
  | linear cap es => simpa [wp, onOA, EStateM.run, hs] using hfits
  | indexed oa =>
    rw [fits_indexed hs] at hfits
    rw [wp_onOA hs]
    refine wp_mono (h oa.capacity oa rfl) (fun a oa' hoa => ?_) fun e oa' hoa => ?_
    · rw [fits_indexed rfl, hoa]
      exact hfits
    · rw [fits_indexed rfl, hoa]
      exact hfits

end Index

section Steps

theorem modify_fits {f : HV V → HV V} (h : ∀ hv, (f hv).storage.shape = hv.storage.shape) :
    Preserves (Fits cfg B) (modify f : HvM V PUnit) :=
  preserves_modify fun hv hfits => hfits.of_shape (h hv)

theorem entryAt_fits (i : Nat) : Preserves (Fits cfg B) (entryAt i : HvM V (HE V)) := by
  refine preserves_bind preserves_get fun hv => ?_
  split
  · exact preserves_throw _
  · exact preserves_pure _

theorem shareHekFlags_fits (q : Query) :
    Preserves (Fits cfg B) (shareHekFlags q : HvM V HEK) := by
  intro hv hfits
  simp only [shareHekFlags, wp_bind, wp_throwIf, wp_get, wp_set, wp_pure]
  exact ⟨fun _ => hfits, fun _ => hfits.of_shape rfl⟩

theorem newHek_fits (q : Query) : Preserves (Fits cfg B) (newHek q : HvM V HEK) := by
  refine preserves_bind preserves_get fun hv => preserves_ite (fun _ => shareHekFlags_fits q) fun _ => ?_
  intro hv hfits
  simp only [saveHekFlags, wp_bind, wp_get, wp_set, wp_pure]
  exact hfits.of_shape rfl

theorem noteKFlags_fits (q : Query) : Preserves (Fits cfg B) (noteKFlags q : HvM V Unit) :=
  modify_fits fun _ => rfl

theorem adoptWasUtf8_fits (q : Query) (i : Nat) :
    Preserves (Fits cfg B) (adoptWasUtf8 q i : HvM V Unit) := by
  refine preserves_bind preserves_get fun hv => ?_
  split
  · exact preserves_throw _
  · rename_i hek _
    dsimp only
    refine preserves_ite (fun _ => preserves_ite (fun _ => ?_) fun _ => ?_) fun _ => preserves_pure _
    · exact preserves_bind (modify_fits fun hv => shape_setHek hv i _) fun _ => noteKFlags_fits q
    · refine preserves_bind (shareHekFlags_fits q) fun newHek => ?_
      refine preserves_bind (modify_fits fun hv => ?_) fun _ => noteKFlags_fits q
      rw [storage_freeKey, shape_setHek]

theorem indexNewEntry_fits (build : Build) (i : Nat) (hash : UInt32) (slot : Option Nat) :
    Preserves (Fits cfg B) (indexNewEntry build i hash slot : HvM V Unit) := by
  refine preserves_bind preserves_get fun hv => ?_
  split
  · split
    · exact onOA_fits fun c => oaPutSlot_keeps _ i
    · exact onOA_fits fun c => oaIndexInsert_keeps i hash
  · exact preserves_pure _

theorem countNewEntry_fits (q : Query) (val : HeVal V) :
    Preserves (Fits cfg B) (countNewEntry q val : HvM V Unit) := by
  refine preserves_bind (modify_fits fun _ => rfl) fun _ => ?_
  refine preserves_bind (modify_fits fun hv => ?_) fun _ => noteKFlags_fits q
  split_ifs <;> rfl

section Values

variable [DecidableEq V]

theorem storeOver_fits (q : Query) (i : Nat) (val : HeVal V) :
    Preserves (Fits cfg B) (storeOver cfg noDestructor q i val) := by
  refine preserves_bind (entryAt_fits i) fun he => ?_
  refine preserves_bind (modify_fits fun hv => shape_setVal hv i val) fun _ => ?_
  refine preserves_bind (preserves_pure _) fun _ => preserves_bind preserves_get fun hv => ?_
  split
  · exact preserves_throw _
  · split
    · exact preserves_pure _
    · exact preserves_bind (entryAt_fits _) fun _ => preserves_pure _

end Values

theorem unlinkEntry_fits (h8 : 8 ≤ B) (build : Build) (i : Nat) (hek : HEK) (slot : Option Nat) :
    Preserves (Fits cfg B) (unlinkEntry build i hek slot : HvM V Unit) := by
  have hflags : Preserves (Fits cfg B) (modify fun hv : HV V =>
      { hv with hasKFlags := hv.hasKFlags && decide (hv.keys ≠ 0) } : HvM V PUnit) :=
    modify_fits fun _ => rfl
  have hdetach : Preserves (Fits cfg B) (modify fun hv : HV V => oaDetach hv i : HvM V PUnit) :=
    modify_fits fun hv => shape_oaDetach hv i
  refine preserves_bind (modify_fits fun hv => shape_setVal hv i _) fun _ => ?_
  refine preserves_bind preserves_get fun hv => ?_
  split
  · refine preserves_bind (preserves_modify fun hv hfits => ?_) fun _ => hflags
    exact (fits_linearRemoveAt h8 hfits i).of_shape rfl
  · split
    · refine preserves_bind (onOA_fits fun c => oaIndexDelete_keeps _) fun _ => ?_
      exact preserves_bind (modify_fits fun _ => rfl) fun _ => preserves_bind hdetach fun _ => hflags
    · exact preserves_bind (modify_fits fun _ => rfl) fun _ => preserves_bind hdetach fun _ => hflags

theorem hvDelete_fits (h8 : 8 ≤ B) (svReadonly : V → Bool) (discard : Bool) (k : KeyArg) :
    Preserves (Fits cfg B) (hvDelete cfg svReadonly discard k) := by
  refine preserves_bind preserves_get fun hv => ?_
  refine preserves_ite (fun _ => preserves_pure _) fun _ => ?_
  dsimp only
  split
  · exact preserves_throw _
  · exact preserves_bind (preserves_throwIf _ _) fun _ => preserves_pure _
  · rename_i i slot _
    refine preserves_bind (entryAt_fits i) fun he => ?_
    split
    · exact preserves_throw _
    · exact preserves_pure _
    · refine preserves_bind (preserves_throwIf _ _) fun _ => preserves_ite (fun _ => ?_) fun _ => ?_
      · exact preserves_bind (modify_fits fun hv => shape_setVal hv i _) fun _ => preserves_pure _
      · exact preserves_bind (unlinkEntry_fits h8 _ i _ slot) fun _ => preserves_pure _

theorem oaIndexDeleteUnlessDeleted_keeps {c : Nat} (build : Build) (pos : Nat) :
    KeepsCapacity c (oaIndexDeleteUnlessDeleted build pos : OaM V Unit) := by
  refine preserves_bind preserves_get fun oa => ?_
  exact preserves_ite (fun _ => preserves_pure _) fun _ => oaIndexDelete_keeps pos

theorem clearPlaceholdersLinear_fits (h8 : 8 ≤ B) (fuel toFind i : Nat) :
    Preserves (Fits cfg B) (clearPlaceholdersLinear fuel toFind i : HvM V Unit) := by
  induction fuel generalizing toFind i with
  | zero => exact preserves_throw _
  | succ fuel ih =>
    refine preserves_bind preserves_get fun hv => preserves_ite (fun _ => preserves_pure _) fun _ => ?_
    refine preserves_bind (entryAt_fits i) fun he => preserves_ite (fun _ => ?_) fun _ => ih _ _
    refine preserves_bind (preserves_modify fun hv hfits => ?_) fun _ =>
      preserves_bind preserves_get fun hv => ih _ _
    have hremoved := fits_linearRemoveAt h8 hfits i
    cases hhek : he.hek <;> exact hremoved.of_shape rfl

theorem clearPlaceholderAt_fits (toFind i : Nat) :
    Preserves (Fits cfg B) (clearPlaceholderAt cfg toFind i : HvM V Nat) := by
  have hrest : Preserves (Fits cfg B) (do
      modify fun hv : HV V => ({ hv with keys := hv.keys - 1 }).addPlaceholders (-1)
      modify fun hv : HV V => { hv with hasKFlags := hv.hasKFlags && decide (hv.keys ≠ 0) }
      modify fun hv : HV V => oaDetach hv i
      pure (toFind - 1) : HvM V Nat) := by
    refine preserves_bind (modify_fits fun _ => rfl) fun _ => ?_
    refine preserves_bind (modify_fits fun _ => rfl) fun _ => ?_
    exact preserves_bind (modify_fits fun hv => shape_oaDetach hv i) fun _ => preserves_pure _
  refine preserves_bind preserves_get fun hv => ?_
  split
  · exact preserves_pure _
  · split
    · exact preserves_pure _
    · refine preserves_ite (fun _ => preserves_pure _) fun _ => ?_
      split
      · exact preserves_throw _
      · dsimp only
        split
        · exact preserves_bind (onOA_fits fun c => oaIndexDeleteUnlessDeleted_keeps _ _) fun _ => hrest
        · exact hrest

theorem hvClearPlaceholders_fits (h8 : 8 ≤ B) :
    Preserves (Fits cfg B) (hvClearPlaceholders cfg : HvM V Unit) := by
  have hset : Preserves (Fits cfg B) (modify fun hv : HV V => hv.hvPlaceholdersSet 0 :
      HvM V PUnit) := modify_fits fun hv => by rw [storage_hvPlaceholdersSet]
  have hindexed : ∀ (is : List Nat) toFind,
      Preserves (Fits cfg B) (clearPlaceholdersIndexed cfg is toFind : HvM V Unit) := by
    intro is
    induction is with
    | nil => exact fun _ => preserves_pure _
    | cons i is ih => exact fun toFind => preserves_bind (clearPlaceholderAt_fits toFind i) fun _ => ih _
  refine preserves_bind preserves_get fun hv => ?_
  dsimp only
  refine preserves_ite (fun _ => preserves_pure _) fun _ => ?_
  split
  · refine preserves_bind (clearPlaceholdersLinear_fits h8 _ _ _) fun _ => preserves_bind hset fun _ => ?_
    exact modify_fits fun _ => rfl
  · exact hset
  · exact hindexed _ _

theorem iterReset_fits : Preserves (Fits cfg B) (iterReset : HvM V Unit) :=
  modify_fits fun _ => rfl

theorem iterAdvance_fits (want : Bool) :
    Preserves (Fits cfg B) (iterAdvance want : HvM V (Option (HE V))) := by
  refine preserves_get_bind fun hv hfits => ?_
  split
  · rw [wp_bind, wp_set]
    exact hfits.of_shape rfl
  · exact preserves_bind iterReset_fits (fun _ => preserves_pure _) hv hfits

end Steps

end XPerl.Hash
