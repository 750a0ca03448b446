import XPerl.Hash.Insertion

/-! Fetch, exists, store and lvalue fetch act on the view. -/

namespace XPerl.Hash

open XPerl.Framework XPerl.Framework.Exec

variable {V : Type} {cfg : Config} {hv hv' : HV V} {i : Nat} {he : HE V}
  {hek : HEK} {old : HeVal V} {q : Query} {slot : Option Nat}
  {again : KeyArg → HeVal V → HvM V (Option (HE V))} {release : HeVal V → HvM V Unit}

theorem find_none_iff {k : KeyId} : hv.view.find k = none ↔ ∀ he ∈ hv.live, he.id ≠ some k :=
  KeyedList.find_eq_none

theorem oaFind_view (wf : WF cfg hv) (k : KeyId) :
    (∃ i hek val slot, At hv i k ⟨some hek, val⟩ ∧
      oaFind cfg.build hv k = some ⟨some i, slot⟩ ∧
      ∀ oa, hv.storage = .indexed oa →
        ∃ pos, slot = some pos ∧ Refers cfg.build oa (hv.homeOf oa) pos i) ∨
    (∃ slot, hv.view.find k = none ∧ oaFind cfg.build hv k = some ⟨none, slot⟩ ∧
      SavedSlot cfg.build hv k.hash slot) := by
  rcases oaFind_spec wf k with ⟨i, ⟨hek?, val⟩, slot, hfirst, hid, hfind, hslot⟩ |
    ⟨slot, hno, hfind, hsaved⟩
  · obtain ⟨hek, rfl⟩ := wf.hek_of_first hfirst
    exact Or.inl ⟨i, hek, val, slot, ⟨hfirst, hid⟩, hfind, hslot⟩
  · exact Or.inr ⟨slot, find_none_iff.mpr hno, hfind, hsaved⟩

theorem oaFind_at (wf : WF cfg hv) {k : KeyId} (hat : At hv i k he) :
    ∃ slot, oaFind cfg.build hv k = some ⟨some i, slot⟩ := by
  rcases oaFind_view wf k with ⟨j, hek, val, slot, hat', hfind, -⟩ | ⟨slot, hnone, -⟩
  · obtain rfl := wf.unique hat.first hat'.first (hat.id.trans hat'.id.symm)
    exact ⟨slot, hfind⟩
  · rw [hat.find wf] at hnone
    simp at hnone

theorem wp_entryAt {k : KeyId} (hat : At hv i k he) {Q : HE V → HV V → Prop}
    {E : PerlError → HV V → Prop} : wp (entryAt i) hv Q E ↔ Q he hv := by
  simp [entryAt, entry_of_first hat.first]

theorem entryAt_setVal (wf : WF cfg hv) (hat : At hv i q.id he) (val : HeVal V) :
    Simulates (Shows cfg) (fun _ _ => True) (some <$> entryAt i)
      ((·.find q.id) <$> get) (hv.setVal i val) (hv.view.setVal q.id val) := by
  obtain ⟨⟨wf₁, hview₁⟩, hat₁⟩ := setVal_spec wf hat val
  have hfind := hat₁.find wf₁
  rw [hview₁] at hfind
  simp only [Simulates, returns, wp_map, wp_entryAt hat₁, wp_get]
  exact ⟨trivial, hfind, wf₁, hview₁⟩

theorem live_of_arrayNull (wf : WF cfg hv) (h : hv.arrayNull = true) : hv.live = [] := by
  have hst := wf.storage
  have hle := live_length_le hv
  refine List.eq_nil_of_length_eq_zero ?_
  cases hs : hv.storage with
  | unallocated n =>
    rw [entries_unallocated hs] at hle
    exact Nat.le_zero.mp hle
  | linear cap es =>
    simp only [StorageOk, hs] at hst
    have hcap : cap = 0 := by simpa [HV.arrayNull, hs] using h
    rw [entries_linear hs] at hle
    omega
  | indexed oa => simp [HV.arrayNull, hs] at h

theorem lookup_of_arrayNull (wf : WF cfg hv) (h : hv.arrayNull = true) (k : KeyId) :
    hv.view.lookup k = none := by
  have hlive : hv.view.live = [] := live_of_arrayNull wf h
  simp [View.lookup, View.find, hlive, KeyedList.find]

variable {cap : Nat} {es : List (HE V)} {octets : Octets} {action : Action V}

theorem linearByteFind_some (hs : hv.storage = .linear cap es)
    (h : linearByteFind es octets = some i) :
    ∃ hek val, At hv i ⟨hek.hash, octets, false⟩ ⟨some hek, val⟩ := by
  have hkey := List.find?_some h
  cases hent : es[i]? with
  | none => simp [hent] at hkey
  | some he =>
    obtain ⟨hek?, val⟩ := he
    cases hek? with
    | none => simp [hent] at hkey
    | some hek =>
      have hid : hek.key = octets ∧ hek.utf8 = false := by simpa [hent] using hkey
      exact ⟨hek, val, by rw [hvEntryFirst_linear hs, hent], by simp [HE.id, HEK.id, hid.1, hid.2]⟩

theorem linearByteFind_none (hs : hv.storage = .linear cap es)
    (h : linearByteFind es octets = none) (hash : UInt32) :
    hv.view.find ⟨hash, octets, false⟩ = none := by
  refine find_none_iff.mpr fun he hm hid => ?_
  obtain ⟨i, hi⟩ := mem_live.mp hm
  have hlt := lt_of_first hi
  rw [HV.hvEntryLimit, entries_linear hs] at hlt
  rw [hvEntryFirst_linear hs] at hi
  obtain ⟨hek, hhek, hid'⟩ := Option.map_eq_some_iff.mp hid
  have hkey : hek.key = octets := congrArg KeyId.key hid'
  have hutf8 : hek.utf8 = false := congrArg KeyId.utf8 hid'
  refine List.find?_eq_none.mp h i (List.mem_range.mpr hlt) ?_
  simp [hi, hhek, hkey, hutf8]

theorem commonQuery_plain (cfg : Config) {k : KeyArg} (h : plainFetch hv k .fetch = true) :
    commonQuery cfg k = k.raw.withHash cfg k := by
  obtain ⟨key, hash⟩ := k
  unfold commonQuery Query.downgrade
  cases key <;> simp_all [plainFetch, Key.isUtf8, KeyArg.raw]

variable [DecidableEq V]

theorem storeOver_spec (wf : WF cfg hv) (hat : At hv i q.id he) (val : HeVal V) :
    Simulates (Shows cfg) (fun _ _ => True) (storeOver cfg noDestructor q i val)
      ((·.find q.id) <$> get) hv (hv.view.setVal q.id val) := by
  obtain ⟨⟨wf₁, hview₁⟩, hat₁⟩ := setVal_spec wf hat val
  obtain ⟨slot, hfind⟩ := oaFind_at wf₁ hat₁
  have hfound := hat₁.find wf₁
  rw [hview₁] at hfound
  simp only [storeOver, Simulates, returns, wp_bind, wp_entryAt hat, wp_modify, noDestructor,
    wp_pure, wp_get, hfind, wp_entryAt hat₁, if_true, wp_map]
  exact ⟨trivial, hfound, wf₁, hview₁⟩

theorem foundStore_spec (wf : WF cfg hv) (hat : At hv i q.id ⟨some hek, old⟩) (k : KeyArg)
    (val : HeVal V) :
    Simulates (Shows cfg) (fun _ _ => True) (hvFound cfg noDestructor again k q (.store val) i)
      (View.store q.stored val) hv hv.view := by
  unfold hvFound View.store
  refine .right ?_
  have hfind : hv.view.find q.stored.id = some ⟨some hek, old⟩ := hat.find wf
  simp only [returns, wp_get, hfind, Action.mutates, if_true]
  refine (adoptWasUtf8_spec wf hat rfl).bind ?_
  rintro - hv₁ v₁ ⟨⟨hek', hat₁⟩, -, -⟩ ⟨wf₁, rfl⟩
  refine .step ((wp_entryAt hat₁).mpr (.step ?_))
  simp only [returns, wp_get]
  refine .right ?_
  cases hp : old.isPlaceholder with
  | false => exact storeOver_spec wf₁ hat₁ val
  | true =>
    refine .step ?_
    simp only [returns, wp_modify]
    cases hv : val.isPlaceholder with
    | true => exact entryAt_setVal wf₁ hat₁ val
    | false =>
      obtain ⟨wf₂, hview₂⟩ := addPlaceholders_spec wf₁ (-1)
      have hat₂ : At (hv₁.addPlaceholders (-1)) i q.id ⟨some hek', old⟩ := ⟨hat₁.first, hat₁.id⟩
      have := entryAt_setVal wf₂ hat₂ val
      rw [hview₂] at this
      exact this

theorem foundLvalue_spec (wf : WF cfg hv) (hat : At hv i q.id ⟨some hek, old⟩) (k : KeyArg)
    (emptyHe : Bool) (sv : V)
    (hagain : ∀ hv₁ val, WF cfg hv₁ → Simulates (Shows cfg) (fun _ _ => True)
      (again (q.again k.key) val) (View.store q.stored val) hv₁ hv₁.view) :
    Simulates (Shows cfg) (fun _ _ => True)
      (hvFound cfg noDestructor again k q (.lvalue emptyHe sv) i)
      (View.lvalue q.stored emptyHe sv) hv hv.view := by
  unfold hvFound View.lvalue
  refine .right ?_
  have hfind : hv.view.find q.stored.id = some ⟨some hek, old⟩ := hat.find wf
  simp only [returns, wp_get, hfind, Action.mutates, if_true]
  refine (adoptWasUtf8_spec wf hat rfl).bind ?_
  rintro - hv₁ v₁ ⟨⟨hek', hat₁⟩, hkeys, hph⟩ ⟨wf₁, rfl⟩
  refine .step ((wp_entryAt hat₁).mpr (.step ?_))
  simp only [returns, wp_get]
  have hmagic : hv.view.placeholders.isSome = hv₁.svMagical := by
    rw [HV.svMagical, hph]
    rfl
  rw [hmagic]
  have hkeys' : hv.view.keys = hv₁.keys := hkeys.symm
  cases hp : old.isPlaceholder with
  | false =>
    simp only [Bool.false_eq_true, if_false, Simulates, returns, wp_pure, wp_map, wp_get]
    exact ⟨trivial, hat₁.find wf₁, wf₁, rfl⟩
  | true =>
    simp only [if_true]
    cases hm : hv₁.svMagical with
    | false =>
      simp only [Bool.false_eq_true, if_false]
      refine .step (.right ?_)
      simp only [returns, wp_modify]
      obtain ⟨wf₂, hview₂⟩ := addPlaceholders_spec wf₁ (-1)
      have hat₂ : At (hv₁.addPlaceholders (-1)) i q.id ⟨some hek', old⟩ := ⟨hat₁.first, hat₁.id⟩
      have := entryAt_setVal wf₂ hat₂ (.sv sv)
      rw [hview₂] at this
      exact this
    | true =>
      simp only [hvNotFound, if_true]
      refine .step ?_
      simp only [returns, wp_get]
      refine .step ?_
      simp only [returns, wp_throwIf, Bool.true_eq_false, false_and, not_false_eq_true, true_and,
        forall_const, IsEmpty.forall_iff, hm, if_true]
      refine (Simulates.throwIf (R := Shows cfg) (by rw [hkeys']) _ ⟨wf₁, rfl⟩).bind ?_
      rintro - hv₂ v₂ ⟨rfl, -⟩ ⟨wf₂, rfl⟩
      exact hagain _ _ wf₂

theorem missingStore_spec (wf : WF cfg hv) (hnew : hv.view.find q.id = none)
    (hsaved : SavedSlot cfg.build hv q.hash slot) (k : KeyArg) (val : HeVal V) :
    Simulates (Shows cfg) (fun _ _ => True) (hvNotFound cfg again k q (.store val) false slot)
      (View.store q.stored val) hv hv.view := by
  unfold hvNotFound View.store
  have hfind : hv.view.find q.stored.id = none := hnew
  refine .step (.right ?_)
  simp only [wp_get, hfind]
  refine (Simulates.throwIf (by simp; rfl) _ ⟨wf, rfl⟩).bind ?_
  rintro - _ _ ⟨rfl, -⟩ ⟨wf, rfl⟩
  refine (Simulates.throwIf Iff.rfl _ ⟨wf, rfl⟩).bind ?_
  rintro - _ _ ⟨rfl, hmax⟩ ⟨wf, rfl⟩
  exact insertEntry_spec wf hnew (Nat.lt_of_not_le hmax) hsaved val

theorem missingLvalue_spec (wf : WF cfg hv) (hnew : hv.view.find q.id = none)
    (hsaved : SavedSlot cfg.build hv q.hash slot) (k : KeyArg) (emptyHe : Bool) (sv : V)
    (hagain : ∀ hv₁ val, WF cfg hv₁ → Simulates (Shows cfg) (fun _ _ => True)
      (again (q.again k.key) val) (View.store q.stored val) hv₁ hv₁.view) :
    Simulates (Shows cfg) (fun _ _ => True)
      (hvNotFound cfg again k q (.lvalue emptyHe sv) false slot)
      (View.lvalue q.stored emptyHe sv) hv hv.view := by
  unfold hvNotFound View.lvalue
  have hfind : hv.view.find q.stored.id = none := hnew
  have hmagic : hv.view.placeholders.isSome = hv.svMagical := rfl
  refine .step (.right ?_)
  simp only [wp_get, hfind, hmagic]
  refine (Simulates.throwIf (by simp; rfl) _ ⟨wf, rfl⟩).bind ?_
  rintro - _ _ ⟨rfl, -⟩ ⟨wf, rfl⟩
  refine (Simulates.throwIf Iff.rfl _ ⟨wf, rfl⟩).bind ?_
  rintro - hv₁ _ ⟨rfl, hmax⟩ ⟨wf, rfl⟩
  cases hm : hv₁.svMagical with
  | true => exact hagain _ _ wf
  | false => exact insertEntry_spec wf hnew (Nat.lt_of_not_le hmax) hsaved _

theorem lookup_spec (wf : WF cfg hv) {k : KeyArg}
    {a : ViewM V (Option (HE V))}
    (hfound : ∀ i hek val, At hv i q.id ⟨some hek, val⟩ → Simulates (Shows cfg) (fun _ _ => True)
      (hvFound cfg release again k q action i) a hv hv.view)
    (hmissing : ∀ slot, hv.view.find q.id = none → SavedSlot cfg.build hv q.hash slot →
      Simulates (Shows cfg) (fun _ _ => True) (hvNotFound cfg again k q action false slot) a hv hv.view) :
    Simulates (Shows cfg) (fun _ _ => True) (hvLookup cfg release again k q action) a hv hv.view := by
  refine .step ?_
  rcases oaFind_view wf q.id with ⟨i, hek, val, slot, hat, hfind, -⟩ | ⟨slot, hnone, hfind, hsaved⟩
  · simp only [returns, wp_get, hfind]
    exact hfound i hek val hat
  · simp only [returns, wp_get, hfind]
    exact hmissing slot hnone hsaved

theorem assign_spec (wf : WF cfg hv) {k : KeyArg}
    (hmut : action.mutates = true) {a : ViewM V (Option (HE V))}
    (hfound : ∀ hv₁ i hek val, WF cfg hv₁ → At hv₁ i (commonQuery cfg k).id ⟨some hek, val⟩ →
      Simulates (Shows cfg) (fun _ _ => True)
        (hvFound cfg release again k (commonQuery cfg k) action i) a hv₁ hv₁.view)
    (hmissing : ∀ hv₁ slot, WF cfg hv₁ → hv₁.view.find (commonQuery cfg k).id = none →
      SavedSlot cfg.build hv₁ (commonQuery cfg k).hash slot → Simulates (Shows cfg) (fun _ _ => True)
        (hvNotFound cfg again k (commonQuery cfg k) action false slot) a hv₁ hv₁.view) :
    Simulates (Shows cfg) (fun _ _ => True) (hvCommonWith cfg release again k action) a hv hv.view := by
  have hplain : plainFetch hv k action = false := by
    cases action <;> simp_all [plainFetch, Action.mutates]
  refine .step ?_
  simp only [returns, wp_get, hplain, hmut, Bool.not_true, Bool.and_false, Bool.false_eq_true,
    if_false]
  refine .step (wp_of_returns (allocateArray_spec wf none) ?_)
  rintro - hv₁ ⟨hroom, -, -⟩
  rw [← hroom.kept.view]
  exact lookup_spec hroom.kept.wf (fun i hek val => hfound hv₁ i hek val hroom.kept.wf)
    fun slot => hmissing hv₁ slot hroom.kept.wf

theorem hvCommonWith_store_spec (again : KeyArg → HeVal V → HvM V (Option (HE V)))
    (wf : WF cfg hv) (k : KeyArg) (val : HeVal V) :
    Simulates (Shows cfg) (fun _ _ => True) (hvCommonWith cfg noDestructor again k (.store val))
      (View.store (commonQuery cfg k).stored val) hv hv.view :=
  assign_spec wf rfl (fun _ _ _ _ wf₁ hat => foundStore_spec wf₁ hat k val)
    fun _ _ wf₁ hnew hsaved => missingStore_spec wf₁ hnew hsaved k val

theorem hvCommon_lvalue_spec (wf : WF cfg hv) (k : KeyArg) (emptyHe : Bool) (sv : V) :
    Simulates (Shows cfg) (fun _ _ => True) (hvCommon cfg noDestructor k (.lvalue emptyHe sv))
      (View.lvalue (commonQuery cfg k).stored emptyHe sv) hv hv.view := by
  have hagain : ∀ (hv₁ : HV V) val, WF cfg hv₁ → Simulates (Shows cfg) (fun _ _ => True)
      (hvStore cfg noDestructor ((commonQuery cfg k).again k.key) val)
      (View.store (commonQuery cfg k).stored val) hv₁ hv₁.view := by
    intro hv₁ val wf₁
    have := hvCommonWith_store_spec (fun _ _ => throw .undefined) wf₁
      ((commonQuery cfg k).again k.key) val
    rwa [commonQuery_again] at this
  exact assign_spec wf rfl
    (fun _ _ _ _ wf₁ hat => foundLvalue_spec wf₁ hat k emptyHe sv hagain)
    fun _ _ wf₁ hnew hsaved => missingLvalue_spec wf₁ hnew hsaved k emptyHe sv hagain

/-! Fetch and exists leave the hash as it is. -/

theorem hvFound_read (hread : action.mutates = false) (k : KeyArg)
    (hent : hv.entries[i]? = some he) :
    returns (hvFound cfg release again k q action i) hv fun r hv' =>
      hv' = hv ∧ r = if he.val.isPlaceholder then none else some he := by
  cases action <;> simp_all [hvFound, Action.mutates, entryAt, hvNotFound, returns]

theorem hvNotFound_read (hread : action.mutates = false) (k : KeyArg) :
    wp (hvNotFound cfg again k q action false slot) hv (fun r hv' => hv' = hv ∧ r = none)
      fun _ hv' => hv' = hv ∧ action ≠ .exists ∧ hv.readonly = true := by
  cases action <;> simp_all [hvNotFound, Action.mutates]

theorem hvLookup_read (wf : WF cfg hv) (hread : action.mutates = false)
    (k : KeyArg) :
    wp (hvLookup cfg release again k q action) hv
      (fun r hv' => hv' = hv ∧ r = hv.view.lookup q.id)
      fun _ hv' => hv' = hv ∧ action ≠ .exists ∧ hv.readonly = true := by
  simp only [hvLookup, wp_bind, wp_get]
  rcases oaFind_view wf q.id with ⟨i, hek, val, slot, hat, hfind, -⟩ | ⟨slot, hnone, hfind, -⟩
  · simp only [hfind]
    refine wp_of_returns (hvFound_read hread k (entry_of_first hat.first)) ?_
    rintro r hv' ⟨rfl, rfl⟩
    refine ⟨rfl, ?_⟩
    rw [View.lookup, hat.find wf]
    cases val <;> rfl
  · simp only [hfind]
    refine wp_mono (hvNotFound_read hread k) ?_ fun _ _ h => h
    rintro r hv' ⟨rfl, rfl⟩
    exact ⟨rfl, by rw [View.lookup, hnone]; rfl⟩

theorem slowRead_spec (wf : WF cfg hv) (hread : action.mutates = false)
    {k : KeyArg} (hplain : plainFetch hv k action = false) :
    wp (hvCommon cfg release k action) hv
      (fun r hv' => hv' = hv ∧ r = hv.view.lookup (commonQuery cfg k).id)
      fun _ hv' => hv' = hv ∧ action ≠ .exists ∧ hv.readonly = true := by
  unfold hvCommon hvCommonWith
  rw [wp_bind, wp_get, if_neg (by simp [hplain]), hread]
  cases hnull : hv.arrayNull with
  | true => exact ⟨rfl, (lookup_of_arrayNull wf hnull _).symm⟩
  | false =>
    rw [if_neg (by simp), wp_bind]
    refine wp_of_returns (allocateArray_spec wf none) ?_
    rintro - hv₁ ⟨-, -, hsame⟩
    obtain rfl := hsame hnull
    exact hvLookup_read wf hread k

theorem hvCommon_exists_spec (release : HeVal V → HvM V Unit) (wf : WF cfg hv) (k : KeyArg) :
    returns (hvCommon cfg release k .exists) hv fun r hv' =>
      hv' = hv ∧ r = hv.view.lookup (commonQuery cfg k).id :=
  wp_mono (slowRead_spec wf rfl rfl) (fun _ _ h => h) fun _ _ h => h.2.1 rfl

theorem linearRead_spec (wf : WF cfg hv)
    (hs : hv.storage = .linear cap es) (hoct : q.octets = octets)
    (hbytes : q.utf8 = false) (k : KeyArg) :
    wp (match linearByteFind es octets with
      | some i => hvFound cfg release again k q .fetch i
      | none => hvNotFound cfg again k q .fetch false none) hv
      (fun r hv' => hv' = hv ∧ (hv.view.HashesOk cfg → q.HashOk cfg → r = hv.view.lookup q.id))
      fun _ hv' => hv' = hv ∧ hv.readonly = true := by
  have hid : q.id = ⟨q.hash, octets, false⟩ := by rw [Query.id, hoct, hbytes]
  obtain ⟨r, hr⟩ : ∃ r, linearByteFind es octets = r := ⟨_, rfl⟩
  cases r with
  | none =>
    rw [hr]
    refine wp_mono (hvNotFound_read rfl k) ?_ fun _ _ h => ⟨h.1, h.2.2⟩
    rintro r hv' ⟨rfl, rfl⟩
    refine ⟨rfl, fun _ _ => ?_⟩
    rw [View.lookup, hid, linearByteFind_none hs hr]
    rfl
  | some i =>
    rw [hr]
    obtain ⟨hek, val, hat⟩ := linearByteFind_some hs hr
    refine wp_of_returns (hvFound_read rfl k (entry_of_first hat.first)) ?_
    rintro r hv' ⟨rfl, rfl⟩
    refine ⟨rfl, fun hall hq => ?_⟩
    have hkey : hek.key = octets := by
      have := hat.id
      simp only [HE.id, Option.map_some, Option.some.injEq] at this
      exact congrArg KeyId.key this
    have hhash : hek.hash = q.hash := by
      rw [hall _ hat.mem hek rfl, hq, hkey, hoct]
    rw [View.lookup, hid, ← hhash, hat.find wf]
    cases val <;> rfl

theorem hvCommon_fetch_spec (wf : WF cfg hv) (k : KeyArg) :
    wp (hvCommon cfg release k .fetch) hv
      (fun r hv' => hv' = hv ∧ (hv.view.HashesOk cfg → (commonQuery cfg k).HashOk cfg →
        r = hv.view.lookup (commonQuery cfg k).id))
      fun _ hv' => hv' = hv ∧ hv.readonly = true := by
  by_cases hplain : plainFetch hv k .fetch = true
  · have hq := commonQuery_plain cfg hplain
    have hlookup : wp (hvLookup cfg release (hvStore cfg release) k (commonQuery cfg k) .fetch) hv
        (fun r hv' => hv' = hv ∧ (hv.view.HashesOk cfg → (commonQuery cfg k).HashOk cfg →
          r = hv.view.lookup (commonQuery cfg k).id)) fun _ hv' => hv' = hv ∧ hv.readonly = true :=
      wp_mono (hvLookup_read wf rfl k) (fun _ _ h => ⟨h.1, fun _ _ => h.2⟩) fun _ _ h => ⟨h.1, h.2.2⟩
    unfold hvCommon hvCommonWith
    rw [wp_bind, wp_get, if_pos hplain, ← hq]
    cases hnull : hv.arrayNull with
    | true => exact ⟨rfl, fun _ _ => (lookup_of_arrayNull wf hnull _).symm⟩
    | false =>
      rw [if_neg (by simp)]
      obtain ⟨key, hash⟩ := k
      cases key with
      | pv octets flags => simp [plainFetch] at hplain
      | shared hek => exact hlookup
      | sv octets utf8 =>
        cases hs : hv.storage with
        | unallocated n => exact hlookup
        | indexed oa => exact hlookup
        | linear cap es =>
          refine linearRead_spec wf hs ?_ ?_ _
          · rw [hq, withHash_octets]
            rfl
          · rw [hq, withHash_utf8]
            rfl
  · exact wp_mono (slowRead_spec wf rfl (by simpa using hplain))
      (fun _ _ h => ⟨h.1, fun _ _ => h.2⟩) fun _ _ h => ⟨h.1, h.2.2⟩

end XPerl.Hash
