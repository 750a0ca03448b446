import XPerl.Hash.Run

/-! An ordinary hash as a map: what a sequence of calls leaves in it. -/

namespace XPerl.Hash

open XPerl.Framework XPerl.Framework.Exec

variable {V : Type}

section Names

/-- A key in its one stored form: the octets, and whether they are UTF-8. -/
abbrev Name := Octets × Bool

def canonical (octets : Octets) (utf8 keyCanonical : Bool) : Name :=
  if utf8 && !keyCanonical then
    match utf8ToBytes octets with
    | none => (octets, true)
    | some bytes => (bytes, false)
  else (octets, utf8)

def Key.name : Key → Name
  | .pv octets flags => canonical octets flags.utf8 flags.keyCanonical
  | .sv octets utf8 => canonical octets utf8 false
  | .shared hek => (hek.key, hek.utf8)

def nameId (cfg : Config) (n : Name) : KeyId := ⟨cfg.perlHash n.1, n.1, n.2⟩

/-- A hash that is passed with a key, or that its shared HEK has, is the key's. -/
def KeyArg.Honest (cfg : Config) (k : KeyArg) : Prop :=
  match k.key with
  | .shared hek => hek.hash = cfg.perlHash hek.key
  | key => k.hash = 0 ∨ k.hash = cfg.perlHash key.name.1

variable {cfg : Config} {k : KeyArg}

/-- A query for a key in its stored form, with no hash or the right one. -/
structure Query.Stands (cfg : Config) (q : Query) (n : Name) : Prop where
  octets : q.octets = n.1
  utf8 : q.utf8 = n.2
  hash : q.hash = 0 ∨ q.hash = cfg.perlHash n.1

variable {q : Query} {n : Name} {utf8 : Bool}

theorem Query.Stands.id (h : q.Stands cfg n) (hshared : ∀ hek, k.key ≠ .shared hek) :
    (q.withHash cfg k).id = nameId cfg n := by
  have hvalue : (q.withHash cfg k).hash = cfg.perlHash n.1 := by
    unfold Query.withHash
    split
    · rename_i hek hkey
      exact absurd hkey (hshared hek)
    · by_cases hzero : q.hash = 0
      · rw [if_pos hzero, h.octets]
      · rw [if_neg hzero]
        exact h.hash.resolve_left hzero
  rw [Query.id, hvalue, withHash_octets, withHash_utf8, h.octets, h.utf8, nameId]

/-- The conversion of S_hv_delete_common, before the hash. -/
def Query.convert (q : Query) (isUtf8 : Bool) : Query :=
  if isUtf8 && !q.keyCanonical then
    match utf8ToBytes q.octets with
    | none => { q with utf8 := true }
    | some bytes =>
      let native := { q with octets := bytes, utf8 := false }
      if bytes = q.octets then native else { native with wasUtf8 := true, freeKey := true }
  else q

theorem Query.stands_of_canonical (q : Query)
    (hutf8 : (utf8 && !q.keyCanonical) = false → q.utf8 = utf8)
    (hhash : q.hash = 0 ∨ q.hash = cfg.perlHash (canonical q.octets utf8 q.keyCanonical).1) :
    (q.downgrade utf8).Stands cfg (canonical q.octets utf8 q.keyCanonical) ∧
      (q.convert utf8).Stands cfg (canonical q.octets utf8 q.keyCanonical) := by
  unfold Query.downgrade Query.convert canonical at *
  cases hc : utf8 && !q.keyCanonical with
  | false =>
    simp only [hc, Bool.false_eq_true, if_false] at hhash hutf8 ⊢
    exact ⟨⟨rfl, hutf8 trivial, hhash⟩, ⟨rfl, hutf8 trivial, hhash⟩⟩
  | true =>
    simp only [hc, if_true] at hhash ⊢
    cases hbytes : utf8ToBytes q.octets with
    | none =>
      simp only [hbytes] at hhash ⊢
      exact ⟨⟨rfl, rfl, hhash⟩, ⟨rfl, rfl, hhash⟩⟩
    | some bytes =>
      simp only [hbytes] at hhash ⊢
      constructor
      · split_ifs
        · exact ⟨rfl, rfl, hhash⟩
        · exact ⟨rfl, rfl, Or.inl rfl⟩
      · split_ifs <;> exact ⟨rfl, rfl, hhash⟩

theorem query_id (h : k.Honest cfg) : (commonQuery cfg k).id = nameId cfg k.key.name ∧
    (deleteQuery cfg k).id = nameId cfg k.key.name := by
  obtain ⟨key, hash⟩ := k
  cases key with
  | shared hek =>
    have hhek : hek.hash = cfg.perlHash hek.key := h
    rw [commonQuery_shared_id]
    simp [deleteQuery, KeyArg.raw, Key.isUtf8, Query.withHash, Query.id, HEK.id, nameId, Key.name,
      hhek]
  | pv octets flags =>
    let q : Query := ⟨octets, flags.utf8, flags.wasUtf8, flags.freeKey, flags.keyCanonical, hash⟩
    have hraw : (q.downgrade flags.utf8).Stands cfg _ ∧ (q.convert flags.utf8).Stands cfg _ :=
      q.stands_of_canonical (fun _ => rfl) h
    have hdelete : deleteQuery cfg ⟨.pv octets flags, hash⟩ = (Query.convert ⟨octets, flags.utf8,
        flags.wasUtf8, flags.freeKey, flags.keyCanonical, hash⟩ flags.utf8).withHash cfg
          ⟨.pv octets flags, hash⟩ := by
      simp only [deleteQuery, KeyArg.raw, Key.isUtf8, Bool.or_self]
      rfl
    have hshared : ∀ hek, Key.pv octets flags ≠ .shared hek := fun _ h => by cases h
    exact ⟨hraw.1.id hshared, hdelete ▸ hraw.2.id hshared⟩
  | sv octets utf8 =>
    have hplain : (utf8 && !false) = false → false = utf8 := by
      cases utf8 <;> simp
    let q : Query := ⟨octets, false, false, false, false, hash⟩
    have hcommon : (q.downgrade utf8).Stands cfg _ := (q.stands_of_canonical hplain h).1
    let q' : Query := { q with utf8 := utf8 }
    have hdelete : (q'.convert utf8).Stands cfg _ := (q'.stands_of_canonical (fun _ => rfl) h).2
    have hshared : ∀ hek, Key.sv octets utf8 ≠ .shared hek := fun _ h => by cases h
    exact ⟨hcommon.id hshared, hdelete.id hshared⟩

end Names

section Contents

abbrev Contents (V : Type) := Name → Option (HeVal V)

/-- The calls of ordinary use, with honest keys and no placeholders. -/
def Op.Ordinary (cfg : Config) : Op V → Prop
  | .store k val => k.Honest cfg ∧ val.isPlaceholder = false
  | .lvalue k _ _ => k.Honest cfg
  | .delete k _ => k.Honest cfg
  | .clear => True
  | .ksplit _ => True
  | _ => False

def Op.change (M : Contents V) : Op V → Contents V
  | .store k val => Function.update M k.key.name (some val)
  | .lvalue k emptyHe sv =>
    if (M k.key.name).isSome then M
    else Function.update M k.key.name (some (if emptyHe then .null else .sv sv))
  | .delete k _ => Function.update M k.key.name none
  | .clear => fun _ => none
  | _ => M

variable (cfg : Config) (svReadonly : V → Bool)

/-- What a sequence of calls should leave, of which those that throw change nothing. -/
def Op.contents [DecidableEq V] : HV V → Contents V → List (Op V) → Contents V
  | _, M, [] => M
  | hv, M, op :: ops =>
    Op.contents (stateAfter (op.call cfg svReadonly) hv)
      (if (outcome (op.call cfg svReadonly) hv).isOk then op.change M else M) ops

/-- What S_oa_find finds for a key; the search may not end. -/
def HV.found (hv : HV V) (n : Name) : Option (Option (HeVal V)) :=
  (oaFind cfg.build hv (nameId cfg n)).map fun r =>
    r.entry.bind fun i => (hv.entries[i]?).map HE.val

/-- The contents for a key with its hash. -/
def Contents.entry (M : Contents V) (k : KeyId) : Option (HeVal V) :=
  if k.hash = cfg.perlHash k.key then M (k.key, k.utf8) else none

/-- A view with these contents, of a writable hash whose iterator stands nowhere. -/
structure View.Has (v : View V) (M : Contents V) : Prop where
  reads : ∀ k, (v.find k).map HE.val = M.entry cfg k
  ordinary : ∀ n val, M n = some val → val.isPlaceholder = false
  writable : v.readonly = false
  idle : v.current = none

variable {cfg svReadonly} {hv : HV V} {v v' : View V} {M : Contents V} {k : StoredKey} {n : Name}
  {val : HeVal V} {ops : List (Op V)}

theorem contents_entry_update (M : Contents V) (n : Name) (x : Option (HeVal V)) (k : KeyId) :
    Contents.entry cfg (Function.update M n x) k =
      if k = nameId cfg n then x else M.entry cfg k := by
  obtain ⟨hash, key, utf8⟩ := k
  by_cases hk : (⟨hash, key, utf8⟩ : KeyId) = nameId cfg n
  · obtain ⟨rfl, rfl, rfl⟩ : hash = cfg.perlHash n.1 ∧ key = n.1 ∧ utf8 = n.2 := by
      simpa [nameId] using hk
    rw [if_pos hk, Contents.entry, if_pos rfl]
    exact Function.update_self ..
  · rw [if_neg hk, Contents.entry, Contents.entry]
    by_cases hhash : hash = cfg.perlHash key
    · have hne : (key, utf8) ≠ n := by
        rintro rfl
        exact hk (by rw [nameId, hhash])
      rw [if_pos hhash, if_pos hhash, Function.update_of_ne hne]
    · rw [if_neg hhash, if_neg hhash]

theorem contents_entry_nameId (M : Contents V) (n : Name) : M.entry cfg (nameId cfg n) = M n :=
  if_pos rfl

theorem View.Has.find (h : v.Has cfg M) (n : Name) : (v.find (nameId cfg n)).map HE.val = M n :=
  (h.reads _).trans (contents_entry_nameId M n)

theorem View.Has.not_placeholder (h : v.Has cfg M) {k : KeyId} {he : HE V}
    (hf : v.find k = some he) : he.val.isPlaceholder = false := by
  have hreads := h.reads k
  rw [hf, Option.map_some, Contents.entry] at hreads
  split_ifs at hreads
  exact h.ordinary _ _ hreads.symm

theorem View.Has.update (h : v.Has cfg M) {x : Option (HeVal V)}
    (hx : ∀ val, x = some val → val.isPlaceholder = false) (hro : v'.readonly = v.readonly)
    (hcur : v'.current = none)
    (hfind : ∀ k, (v'.find k).map HE.val = if k = nameId cfg n then x else (v.find k).map HE.val) :
    v'.Has cfg (Function.update M n x) where
  reads k := by
    rw [hfind, contents_entry_update, h.reads]
  ordinary m val hval := by
    by_cases hm : m = n
    · rw [hm, Function.update_self] at hval
      exact hx val hval
    · rw [Function.update_of_ne hm] at hval
      exact h.ordinary m val hval
  writable := hro.trans h.writable
  idle := hcur

theorem View.Has.same (h : v.Has cfg M) (hro : v'.readonly = v.readonly) (hcur : v'.current = none)
    (hfind : ∀ k, (v'.find k).map HE.val = (v.find k).map HE.val) : v'.Has cfg M where
  reads k := (hfind k).trans (h.reads k)
  ordinary := h.ordinary
  writable := hro.trans h.writable
  idle := hcur

theorem adopted_val {hek : HEK} {old : HeVal V} (hf : v.find k.id = some ⟨some hek, old⟩)
    (k' : KeyId) : ((v.adopted k hek).find k').map HE.val = (v.find k').map HE.val := by
  rw [View.find_adopted hf]
  by_cases hk : k' = k.id
  · rw [if_pos hk, hk, hf]
    rfl
  · rw [if_neg hk]

theorem View.Has.stores (h : v.Has cfg M) (hk : k.id = nameId cfg n)
    (hval : val.isPlaceholder = false) (hs : v.Stores k val v') :
    v'.Has cfg (Function.update M n (some val)) := by
  have hx : ∀ w, some val = some w → w.isPlaceholder = false := by
    rintro w hw
    rw [← Option.some.inj hw]
    exact hval
  cases hs with
  | existing hek old hf =>
    have hold : old.isPlaceholder = false := h.not_placeholder hf
    have hover : v.overwritten k hek old val = (v.adopted k hek).setVal k.id val := by
      simp [View.overwritten, hold]
    rw [hover]
    refine h.update hx (View.adopted_readonly v k hek) ?_ ?_
    · exact (congrArg View.current (View.adopted_frame v k hek)).trans h.idle
    · intro k'
      rw [View.find_setVal, ← hk]
      by_cases hkk : k' = k.id
      · rw [if_pos hkk, if_pos hkk, View.find_adopted hf, if_pos rfl]
        rfl
      · rw [if_neg hkk, if_neg hkk, adopted_val hf]
  | new hf hro =>
    refine h.update hx rfl h.idle ?_
    intro k'
    rw [View.find_inserted hf, ← hk]
    by_cases hkk : k' = k.id
    · rw [if_pos hkk, if_pos hkk]
      rfl
    · rw [if_neg hkk, if_neg hkk]

theorem View.Has.lvalues {emptyHe : Bool} {sv : V} (h : v.Has cfg M) (hk : k.id = nameId cfg n)
    (hl : v.Lvalues k emptyHe sv v') : v'.Has cfg (if (M n).isSome then M
      else Function.update M n (some (if emptyHe then .null else .sv sv))) := by
  have hn := h.find n
  rw [← hk] at hn
  cases hl with
  | ordinary hek old hf hord =>
    rw [hf, Option.map_some] at hn
    rw [← hn, if_pos Option.isSome_some]
    exact h.same (View.adopted_readonly v k hek)
      ((congrArg View.current (View.adopted_frame v k hek)).trans h.idle) (adopted_val hf)
  | hidden hek w hf hval => exact absurd (h.not_placeholder hf) (by simp [HeVal.isPlaceholder])
  | new hf hro =>
    rw [hf, Option.map_none] at hn
    have hmissing : ¬ ((none : Option (HeVal V)).isSome = true) := Bool.false_ne_true
    rw [← hn, if_neg hmissing]
    exact h.stores hk (by cases emptyHe <;> rfl) (.new hf hro)

theorem View.Has.deletes {indexed : Bool} (h : v.Has cfg M)
    (hd : v.Deletes (nameId cfg n) indexed v') : v'.Has cfg (Function.update M n none) := by
  cases hd with
  | absent hf =>
    have hnone : v.find (nameId cfg n) = none := by
      cases hfind : v.find (nameId cfg n) with
      | none => rfl
      | some he => simp [View.lookup, hfind, h.not_placeholder hfind] at hf
    refine h.update (fun _ h => by cases h) rfl h.idle ?_
    intro k
    by_cases hk : k = nameId cfg n
    · rw [if_pos hk, hk, hnone]
      rfl
    · rw [if_neg hk]
  | hidden he hf hord hro => exact absurd (hro.symm.trans h.writable) (by simp)
  | removed hek w hf hord hro =>
    refine h.update (fun _ h => by cases h) rfl ?_ ?_
    · simp [View.remove, h.idle]
    · intro k
      have hfind := KeyedList.find_erase HE.id (l := v.live) (c := some (nameId cfg n)) (some k)
      simp only [Option.some.injEq] at hfind
      refine (congrArg (Option.map HE.val) hfind).trans ?_
      by_cases hk : k = nameId cfg n
      · rw [if_pos hk, if_pos hk]
        rfl
      · rw [if_neg hk, if_neg hk]
        rfl

theorem View.Has.cleared (h : v.Has cfg M) : v.cleared.Has cfg (fun _ => none) where
  reads k := by
    rw [Contents.entry, ite_self]
    rfl
  ordinary := fun _ _ h => by cases h
  writable := h.writable
  idle := rfl

variable [DecidableEq V] {op : Op V}

/-- A well-formed hash with these contents. -/
def Holds (cfg : Config) (M : Contents V) (hv : HV V) : Prop := WF cfg hv ∧ hv.view.Has cfg M

variable {α : Type} {cfg' : Config} {hv' : HV V}

omit [DecidableEq V] in
theorem holds_of_simulates {P : α → HV V → Prop} {m : HvM V α} {a : ViewM V α}
    {f : α → Outcome V} {M' : Contents V} (hsim : Simulates (Shows cfg) P m a hv hv.view)
    (ha : wp a hv.view (fun _ v' => v'.Has cfg M') fun _ v' => v'.Has cfg M) :
    wp (f <$> m) hv (fun _ hv' => Holds cfg M' hv') fun _ hv' => Holds cfg M hv' := by
  obtain ⟨hout, hwf, hview⟩ := hsim.outcome
  rw [wp_iff, ← hview, ← hout] at ha
  rw [wp_map, wp_iff]
  exact ⟨fun r hr => ⟨hwf, ha.1 r hr⟩, fun e he => ⟨hwf, ha.2 e he⟩⟩

theorem hvClear_writable (wf : WF cfg hv) (hro : hv.readonly = false) (svReadonly : V → Bool) :
    returns (hvClear cfg svReadonly) hv fun _ hv' => Shows cfg hv' hv.view.cleared := by
  have hfree : ¬ (hv.readonly = true ∧ hv.keys ≠ 0) := by
    rw [hro]
    exact fun h => Bool.false_ne_true h.1
  refine wp_mono (hvClear_spec wf svReadonly) (fun _ _ hdone => hdone.1 hfree) ?_
  rintro - hv' ⟨hwritable, hkeys, -⟩
  exact hfree ⟨hwritable, hkeys⟩

theorem call_holds (h : Holds cfg M hv) (hop : op.Ordinary cfg) :
    wp (op.call cfg svReadonly) hv (fun _ hv' => Holds cfg (op.change M) hv')
      fun _ hv' => Holds cfg M hv' := by
  obtain ⟨wf, h⟩ := h
  cases op with
  | store k val =>
    refine holds_of_simulates (hvCommonWith_store_spec _ wf k val) ?_
    refine wp_mono (View.store_spec _ _ _) (fun _ _ hs => h.stores (query_id hop.1).1 hop.2 hs.1) ?_
    rintro _ _ rfl
    exact h
  | lvalue k emptyHe sv =>
    refine holds_of_simulates (hvCommon_lvalue_spec wf k emptyHe sv) ?_
    refine wp_mono (View.lvalue_spec _ _ _ _) (fun _ _ hs => h.lvalues (query_id hop).1 hs.1) ?_
    rintro _ _ (rfl | ⟨hek, hf, rfl⟩)
    · exact h
    · exact absurd (h.not_placeholder hf) (by simp [HeVal.isPlaceholder])
  | delete k discard =>
    refine holds_of_simulates (hvDelete_spec wf svReadonly discard k) ?_
    refine wp_mono (View.delete_spec _ _ _ _ _) (fun _ _ hs => ?_) ?_
    · rw [(query_id hop).2] at hs
      exact h.deletes hs
    · rintro _ _ rfl
      exact h
  | clear =>
    rw [Op.call, wp_map]
    refine wp_of_returns (hvClear_writable wf h.writable svReadonly) ?_
    rintro - hv' ⟨wf', hview⟩
    exact ⟨wf', hview ▸ h.cleared⟩
  | ksplit newmax =>
    rw [Op.call, wp_map]
    refine wp_mono (hvKsplit_spec wf newmax) ?_ ?_
    · exact fun _ _ hkept => ⟨hkept.wf, hkept.view ▸ h⟩
    · exact fun _ _ hkept => ⟨hkept.wf, hkept.view ▸ h⟩
  | fetch | «exists» | clearPlaceholders | iterinit | iternext | setReadonly => exact hop.elim

theorem holds_stateAfter (h : Holds cfg M hv) (hop : op.Ordinary cfg) :
    Holds cfg (if (outcome (op.call cfg svReadonly) hv).isOk then op.change M else M)
      (stateAfter (op.call cfg svReadonly) hv) := by
  have hcall : wp (op.call cfg svReadonly) hv (fun _ hv' => Holds cfg (op.change M) hv')
      fun _ hv' => Holds cfg M hv' := call_holds h hop
  rw [wp_iff] at hcall
  cases hout : outcome (op.call cfg svReadonly) hv with
  | ok r => exact hcall.1 r hout
  | error e => exact hcall.2 e hout

theorem run_holds (h : Holds cfg M hv) (hops : ∀ op ∈ ops, op.Ordinary cfg) :
    Holds cfg (Op.contents cfg svReadonly hv M ops) (Op.run cfg svReadonly hv ops) := by
  induction ops generalizing hv M with
  | nil => exact h
  | cons op ops ih =>
    exact ih (holds_stateAfter h (hops op List.mem_cons_self))
      fun o ho => hops o (List.mem_cons_of_mem op ho)

omit [DecidableEq V] in
theorem newHV_holds (shareKeys : Bool) : Holds cfg (fun _ => none) (newHV shareKeys : HV V) := by
  refine ⟨newHV_wf cfg shareKeys, fun k => ?_, (fun _ _ h => by cases h), rfl, rfl⟩
  rw [Contents.entry, ite_self]
  rfl

omit [DecidableEq V] in
theorem found_eq (wf : WF cfg hv) (n : Name) :
    hv.found cfg n = some ((hv.view.find (nameId cfg n)).map HE.val) := by
  rcases oaFind_spec wf (nameId cfg n) with
    ⟨i, he, slot, hfirst, hid, hfind, -⟩ | ⟨slot, hnone, hfind, -⟩
  · have hview : hv.view.find (nameId cfg n) = some he :=
      wf.view.find_of_mem (mem_live.2 ⟨i, hfirst⟩) hid
    rw [HV.found, hfind, hview]
    simp [entry_of_first hfirst]
  · have hview : hv.view.find (nameId cfg n) = none := KeyedList.find_eq_none.2 hnone
    rw [HV.found, hfind, hview]
    rfl

omit [DecidableEq V] in
theorem Holds.names (h : Holds cfg M hv) :
    ∃ names : List Name,
      names.Nodup ∧ (∀ n, n ∈ names ↔ (M n).isSome) ∧ hv.keys = names.length := by
  obtain ⟨wf, h⟩ := h
  have hnamed : ∀ x ∈ hv.view.live.map HE.id, ∃ n, some (nameId cfg n) = x := by
    intro x hx
    obtain ⟨he, hm, rfl⟩ := List.mem_map.1 hx
    obtain ⟨hek, hhek⟩ := Option.isSome_iff_exists.1 (wf.view.heks he hm)
    have hid : he.id = some hek.id := by simp [HE.id, hhek]
    have hreads := h.reads hek.id
    rw [wf.view.find_of_mem hm hid, Option.map_some, Contents.entry] at hreads
    split_ifs at hreads with hhash
    exact ⟨(hek.id.key, hek.id.utf8), by rw [hid, nameId, ← hhash]⟩
  obtain ⟨names, hnames⟩ :
      hv.view.live.map HE.id ∈ Set.range (List.map fun n => some (nameId cfg n)) :=
    (Set.range_list_map _).symm ▸ hnamed
  have hinj : Function.Injective fun n => some (nameId cfg n) := fun n m hnm =>
    Prod.ext (congrArg KeyId.key (Option.some.inj hnm)) (congrArg KeyId.utf8 (Option.some.inj hnm))
  refine ⟨names, .of_map _ (hnames ▸ wf.view.distinct), fun n => ?_, ?_⟩
  · rw [← List.mem_map_of_injective hinj, hnames, ← h.find n, Option.isSome_map]
    constructor
    · intro hm
      obtain ⟨he, hlive, hid⟩ := List.mem_map.1 hm
      rw [wf.view.find_of_mem hlive hid]
      rfl
    · intro hsome
      obtain ⟨he, hf⟩ := Option.isSome_iff_exists.1 hsome
      obtain ⟨hlive, hid⟩ := View.mem_of_find hf
      exact List.mem_map.2 ⟨he, hlive, hid⟩
  · have hlen := congrArg List.length hnames
    rw [List.length_map, List.length_map] at hlen
    exact wf.view.keys.trans hlen.symm

omit [DecidableEq V] in
theorem View.delete_indexed (h : v.current = none) (discard : Bool) (k : KeyId)
    (indexed indexed' : Bool) :
    stateAfter (View.delete svReadonly discard k indexed) v =
      stateAfter (View.delete svReadonly discard k indexed') v := by
  have hremove : ∀ hek, v.remove k hek indexed = v.remove k hek indexed' := fun hek => by
    simp [View.remove, h]
  suffices hrun : (View.delete svReadonly discard k indexed).run v =
      (View.delete svReadonly discard k indexed').run v by
    rw [stateAfter, hrun, stateAfter]
  refine run_eq_of_wp fun Q E => ?_
  simp only [View.delete, wp_bind, wp_get]
  rcases View.find_cases v k with ⟨hek, old, hf, -⟩ | hf
  · rw [hf]
    simp only [wp_ite, wp_bind, wp_throwIf, wp_set, wp_pure, hremove]
  · rw [hf]

omit [DecidableEq V] in
theorem stateAfter_map (f : α → Outcome V) (m : HvM V α) :
    stateAfter (f <$> m) hv = stateAfter m hv := by
  have hwp : wp (f <$> m) hv (fun _ t => t = stateAfter m hv) fun _ t => t = stateAfter m hv := by
    rw [wp_map, wp_iff]
    exact ⟨fun _ _ => rfl, fun _ _ => rfl⟩
  exact wp_stateAfter (P := (· = stateAfter m hv)) hwp

theorem call_view (h : Holds cfg M hv) (wf' : WF cfg' hv')
    (hhash : cfg'.perlHash = cfg.perlHash) (hview : hv'.view = hv.view) (hop : op.Ordinary cfg) :
    Shows cfg' (stateAfter (op.call cfg' svReadonly) hv')
      (stateAfter (op.call cfg svReadonly) hv).view := by
  have hwith : ∀ k (q : Query), q.withHash cfg' k = q.withHash cfg k := fun k q => by
    rw [Query.withHash, Query.withHash, hhash]
  cases op with
  | store k val =>
    obtain ⟨-, -, hs⟩ := (hvCommonWith_store_spec (fun _ _ => throw .undefined) h.1 k val).outcome
    obtain ⟨-, hs'⟩ := (hvCommonWith_store_spec (fun _ _ => throw .undefined) wf' k val).outcome
    have hquery : commonQuery cfg' k = commonQuery cfg k := hwith _ _
    rw [hquery, hview, ← hs] at hs'
    simp only [Op.call, stateAfter_map]
    exact hs'
  | lvalue k emptyHe sv =>
    obtain ⟨-, -, hs⟩ := (hvCommon_lvalue_spec h.1 k emptyHe sv).outcome
    obtain ⟨-, hs'⟩ := (hvCommon_lvalue_spec wf' k emptyHe sv).outcome
    have hquery : commonQuery cfg' k = commonQuery cfg k := hwith _ _
    rw [hquery, hview, ← hs] at hs'
    simp only [Op.call, stateAfter_map]
    exact hs'
  | delete k discard =>
    obtain ⟨-, -, hs⟩ := (hvDelete_spec h.1 svReadonly discard k).outcome
    obtain ⟨-, hs'⟩ := (hvDelete_spec wf' svReadonly discard k).outcome
    have hquery : deleteQuery cfg' k = deleteQuery cfg k := hwith _ _
    rw [hquery, hview, View.delete_indexed h.2.idle _ _ _ (!hv.isLinear), ← hs] at hs'
    simp only [Op.call, stateAfter_map]
    exact hs'
  | clear =>
    have hro : hv'.readonly = false := (congrArg View.readonly hview).trans h.2.writable
    obtain ⟨-, -, hs⟩ := stateAfter_of_returns (hvClear_writable h.1 h.2.writable svReadonly)
    obtain ⟨-, hs'⟩ := stateAfter_of_returns (hvClear_writable wf' hro svReadonly)
    rw [hview, ← hs] at hs'
    simp only [Op.call, stateAfter_map]
    exact hs'
  | ksplit newmax =>
    have hs := wp_stateAfter (hvKsplit_spec h.1 newmax)
    have hs' := wp_stateAfter (hvKsplit_spec wf' newmax)
    simp only [Op.call, stateAfter_map]
    exact ⟨hs'.wf, hs'.view.trans (hview.trans hs.view.symm)⟩
  | fetch | «exists» | clearPlaceholders | iterinit | iternext | setReadonly => exact hop.elim

theorem run_view (h : Holds cfg M hv) (wf' : WF cfg' hv')
    (hhash : cfg'.perlHash = cfg.perlHash) (hview : hv'.view = hv.view)
    (hops : ∀ op ∈ ops, op.Ordinary cfg) :
    Shows cfg' (Op.run cfg' svReadonly hv' ops) (Op.run cfg svReadonly hv ops).view := by
  induction ops generalizing hv hv' M with
  | nil => exact ⟨wf', hview⟩
  | cons op ops ih =>
    have hop := hops op List.mem_cons_self
    obtain ⟨wf₁, hview₁⟩ :
        Shows cfg' (stateAfter (op.call cfg' svReadonly) hv')
          (stateAfter (op.call cfg svReadonly) hv).view := call_view h wf' hhash hview hop
    exact ih (holds_stateAfter h hop) wf₁ hview₁ fun o ho => hops o (List.mem_cons_of_mem op ho)

def overwriteAndDelete : List (Op Nat) :=
  [.store (.bytes [1]) (.sv 10), .lvalue (.bytes [2]) false 20, .store (.bytes [1]) (.sv 11),
    .ksplit 20, .delete (.bytes [2]) false]

end Contents

section Characters

/-- UTF8_EIGHT_BIT_HI -/
def eightBitHi (b : UInt8) : UInt8 := (0xC0 : UInt8) ||| (b >>> 6)

/-- UTF8_EIGHT_BIT_LO -/
def eightBitLo (b : UInt8) : UInt8 := (0x80 : UInt8) ||| (b &&& 0x3F)

/-- bytes_to_utf8 -/
def upgraded (octets : Octets) : Octets :=
  octets.flatMap fun b => if b < 0x80 then [b] else [eightBitHi b, eightBitLo b]

/-- A key for the characters below 256 with these codes, in any of the forms that a caller may
choose. -/
inductive Key.Spells (octets : Octets) : Key → Prop where
  | bytes {flags : KeyFlags} : flags.utf8 = false → Spells octets (.pv octets flags)
  | utf8 {flags : KeyFlags} : flags.utf8 = true → flags.keyCanonical = false →
      Spells octets (.pv (upgraded octets) flags)
  | svBytes : Spells octets (.sv octets false)
  | svUtf8 : Spells octets (.sv (upgraded octets) true)
  | shared {hek : HEK} : hek.key = octets → hek.utf8 = false → Spells octets (.shared hek)

/-- A key in UTF-8 whose first character above 255 begins with `b`. -/
inductive Key.SpellsWide (octets : Octets) (b : UInt8) (rest : Octets) : Key → Prop where
  | utf8 {flags : KeyFlags} : flags.utf8 = true →
      SpellsWide octets b rest (.pv (upgraded octets ++ b :: rest) flags)
  | sv : SpellsWide octets b rest (.sv (upgraded octets ++ b :: rest) true)
  | shared {hek : HEK} : hek.key = upgraded octets ++ b :: rest → hek.utf8 = true →
      SpellsWide octets b rest (.shared hek)

variable {octets rest : Octets} {b : UInt8} {key : Key}

theorem eightBit_back (b : UInt8) : ¬ b < 0x80 → ¬ eightBitHi b < 0x80 ∧
    (eightBitHi b = 0xC2 ∨ eightBitHi b = 0xC3) ∧ 0x80 ≤ eightBitLo b ∧ eightBitLo b < 0xC0 ∧
    ((eightBitHi b &&& 0x03) <<< 6 ||| (eightBitLo b &&& 0x3F)) = b := by
  have hall : ∀ v : BitVec 8, ¬ (⟨v⟩ : UInt8) < 0x80 → ¬ eightBitHi ⟨v⟩ < 0x80 ∧
      (eightBitHi ⟨v⟩ = 0xC2 ∨ eightBitHi ⟨v⟩ = 0xC3) ∧ 0x80 ≤ eightBitLo ⟨v⟩ ∧
      eightBitLo ⟨v⟩ < 0xC0 ∧
      ((eightBitHi ⟨v⟩ &&& 0x03) <<< 6 ||| (eightBitLo ⟨v⟩ &&& 0x3F)) = ⟨v⟩ := by
    decide +kernel
  exact hall b.toBitVec

theorem utf8ToBytes_upgraded_append (octets rest : Octets) :
    utf8ToBytes (upgraded octets ++ rest) = (utf8ToBytes rest).map (octets ++ ·) := by
  induction octets with
  | nil => simp [upgraded]
  | cons c octets ih =>
    have htail : upgraded (c :: octets) =
        (if c < 0x80 then [c] else [eightBitHi c, eightBitLo c]) ++ upgraded octets := rfl
    rw [htail]
    by_cases hlow : c < 0x80
    · rw [if_pos hlow, List.cons_append, List.cons_append, List.nil_append, utf8ToBytes.eq_def]
      simp only [if_pos hlow, ih, Option.map_map]
      rfl
    · obtain ⟨hhigh, hlead, hlo, hlt, hvalue⟩ := eightBit_back c hlow
      rw [if_neg hlow, List.cons_append, List.cons_append, List.cons_append, List.nil_append,
        utf8ToBytes.eq_def]
      simp only [if_neg hhigh, List.cons_append, if_pos (And.intro hlead (And.intro hlo hlt)), ih,
        Option.map_map, hvalue]
      rfl

theorem Key.Spells.name (h : key.Spells octets) : key.name = (octets, false) := by
  have hbytes : utf8ToBytes (upgraded octets) = some octets := by
    have happend := utf8ToBytes_upgraded_append octets []
    have hnil : utf8ToBytes [] = some [] := by rw [utf8ToBytes.eq_def]
    rwa [List.append_nil, hnil, Option.map_some, List.append_nil] at happend
  cases h with
  | bytes hflags => simp [Key.name, canonical, hflags]
  | utf8 hflags hcanonical => simp [Key.name, canonical, hflags, hcanonical, hbytes]
  | svBytes => rfl
  | svUtf8 => simp [Key.name, canonical, hbytes]
  | shared hkey hflag => simp [Key.name, hkey, hflag]

theorem Key.SpellsWide.name (h : key.SpellsWide octets b rest) (hb : 0xC4 ≤ b) :
    key.name = (upgraded octets ++ b :: rest, true) := by
  have hnone : utf8ToBytes (upgraded octets ++ b :: rest) = none := by
    have hhigh : ¬ b < 0x80 := fun hlow =>
      absurd (UInt8.lt_of_lt_of_le hlow (by decide : (0x80 : UInt8) ≤ 0xC4)) (UInt8.not_lt.2 hb)
    have hlead : ¬ (b = 0xC2 ∨ b = 0xC3) := by
      rintro (rfl | rfl) <;> exact absurd hb (by decide)
    rw [utf8ToBytes_upgraded_append, utf8ToBytes.eq_def]
    simp only [if_neg hhigh]
    cases rest with
    | nil => rfl
    | cons c rest => simp [hlead]
  cases h with
  | utf8 hflags => simp [Key.name, canonical, hflags, hnone]
  | sv => simp [Key.name, canonical, hnone]
  | shared hkey hflag => simp [Key.name, hkey, hflag]

variable {V : Type} [DecidableEq V] {cfg : Config} {hv : HV V} {M : Contents V} {k : KeyArg}

omit [DecidableEq V] in
theorem Holds.hashesOk (h : Holds cfg M hv) : hv.view.HashesOk cfg := by
  intro he hm hek hhek
  have hid : he.id = some hek.id := by simp [HE.id, hhek]
  have hreads := h.2.reads hek.id
  rw [h.1.view.find_of_mem hm hid, Option.map_some, Contents.entry] at hreads
  split_ifs at hreads with hhash
  exact hhash

omit [DecidableEq V] in
theorem Holds.lookup (h : Holds cfg M hv) (n : Name) :
    (hv.view.lookup (nameId cfg n)).map HE.val = M n := by
  rw [View.lookup, ← h.2.find n]
  cases hf : hv.view.find (nameId cfg n) with
  | none => rfl
  | some he => simp [Option.filter, h.2.not_placeholder hf]

/-- An honest fetch or exists answers from the contents, and changes nothing. -/
theorem read_spec (h : Holds cfg M hv) (hk : k.Honest cfg) (action : Action V)
    (haction : action = .fetch ∨ action = .exists) :
    returns (hvCommon cfg noDestructor k action) hv fun r hv' =>
      hv' = hv ∧ r.map HE.val = M k.key.name := by
  obtain ⟨hid, -⟩ := query_id hk
  rcases haction with rfl | rfl
  · have hquery : (commonQuery cfg k).HashOk cfg := by
      rw [Query.id, nameId] at hid
      injection hid with hhash hoctets
      rw [Query.HashOk, hhash, hoctets]
    refine wp_mono (hvCommon_fetch_spec h.1 k) ?_ ?_
    · rintro r hv' ⟨rfl, hlookup⟩
      rw [hlookup h.hashesOk hquery, hid, h.lookup]
      exact ⟨rfl, rfl⟩
    · rintro e hv' ⟨-, hro⟩
      exact Bool.true_eq_false.mp (hro.symm.trans h.2.writable)
  · refine wp_mono (hvCommon_exists_spec noDestructor h.1 k) ?_ fun _ _ => id
    rintro r hv' ⟨rfl, rfl⟩
    rw [hid, h.lookup]
    exact ⟨rfl, rfl⟩

omit [DecidableEq V] in
theorem View.Has.delete_returns {v : View V} (h : v.Has cfg M) (svReadonly : V → Bool)
    (discard : Bool) (n : Name) (indexed : Bool) :
    returns (View.delete svReadonly discard (nameId cfg n) indexed) v fun r v' =>
      r = (if discard then none else (M n).bind HeVal.toSv) ∧
        v'.Has cfg (Function.update M n none) := by
  have hvalue : wp (View.delete svReadonly discard (nameId cfg n) indexed) v
      (fun r _ => r = if discard then none else (M n).bind HeVal.toSv) fun _ _ => False := by
    simp only [View.delete, wp_bind, wp_get, ← h.find n]
    rcases View.find_cases v (nameId cfg n) with ⟨hek, old, hf, -⟩ | hf
    · simp [hf, h.not_placeholder hf, h.writable]
    · simp [hf, h.writable]
  refine wp_mono (wp_and hvalue (View.delete_spec v svReadonly discard _ indexed)) ?_ ?_
  · exact fun _ _ hd => ⟨hd.1, h.deletes hd.2⟩
  · exact fun _ _ hd => hd.1

omit [DecidableEq V] in
/-- An honest delete gives back the value that it takes out. -/
theorem delete_returns (h : Holds cfg M hv) (hk : k.Honest cfg) (svReadonly : V → Bool)
    (discard : Bool) : returns (hvDelete cfg svReadonly discard k) hv fun r hv' =>
      r = (if discard then none else (M k.key.name).bind HeVal.toSv) ∧
        Holds cfg (Function.update M k.key.name none) hv' := by
  obtain ⟨hout, hwf, hview⟩ := (hvDelete_spec h.1 svReadonly discard k).outcome
  have hdelete := h.2.delete_returns svReadonly discard k.key.name (!hv.isLinear)
  rw [← (query_id hk).2, returns, wp_iff, ← hview, ← hout] at hdelete
  rw [returns, wp_iff]
  exact ⟨fun r hr => ⟨(hdelete.1 r hr).1, hwf, (hdelete.1 r hr).2⟩, hdelete.2⟩

/-- Keys are characters: after any calls, a fetch, an exists and a delete answer for the characters
of the key, in whatever form it comes, and no wider text is the same key. -/
theorem reads_of_run (cfg : Config) (svReadonly : V → Bool) (shareKeys : Bool) (ops : List (Op V))
    (hops : ∀ op ∈ ops, op.Ordinary cfg) (octets : Octets) (n : Name)
    (hk : (k.key.Spells octets ∧ n = (octets, false)) ∨ ∃ b rest, 0xC4 ≤ b ∧
      k.key.SpellsWide octets b rest ∧ n = (upgraded octets ++ b :: rest, true))
    (hhonest : k.Honest cfg) :
    (∀ action, action = .fetch ∨ action = .exists →
      returns (hvCommon cfg noDestructor k action) (Op.run cfg svReadonly (newHV shareKeys) ops)
        fun r hv' => hv' = Op.run cfg svReadonly (newHV shareKeys) ops ∧
          r.map HE.val = Op.contents cfg svReadonly (newHV shareKeys) (fun _ => none) ops n) ∧
    ∀ discard, returns (hvDelete cfg svReadonly discard k)
      (Op.run cfg svReadonly (newHV shareKeys) ops) fun r hv' =>
        r = (if discard then none else (Op.contents cfg svReadonly (newHV shareKeys)
          (fun _ => none) ops n).bind HeVal.toSv) ∧ hv'.found cfg n = some none ∧
        ∀ m, m ≠ n → hv'.found cfg m = (Op.run cfg svReadonly (newHV shareKeys) ops).found cfg m := by
  have hname : k.key.name = n := by
    rcases hk with ⟨hspells, rfl⟩ | ⟨b, rest, hb, hspells, rfl⟩
    · exact hspells.name
    · exact hspells.name hb
  have hrun : Holds cfg (Op.contents cfg svReadonly (newHV shareKeys) (fun _ => none) ops)
      (Op.run cfg svReadonly (newHV shareKeys) ops) := run_holds (newHV_holds shareKeys) hops
  rw [← hname]
  refine ⟨fun action haction => read_spec hrun hhonest action haction, fun discard => ?_⟩
  refine wp_mono (delete_returns hrun hhonest svReadonly discard) ?_ fun _ _ => id
  rintro r hv' ⟨hr, hholds⟩
  refine ⟨hr, ?_, fun m hm => ?_⟩
  · rw [found_eq hholds.1, hholds.2.find, Function.update_self]
  · rw [found_eq hholds.1, hholds.2.find, Function.update_of_ne hm, found_eq hrun.1, hrun.2.find]

/-- A key stored in bytes is fetched in UTF-8. -/
theorem reads_of_run_small : returns
    (hvCommon (additive .oa 8 (by decide)) noDestructor ⟨.sv [0xC3, 0xA9] true, 0⟩ .fetch)
    (Op.run (additive .oa 8 (by decide)) (fun _ => false) (newHV true)
      [.store (.bytes [0xE9]) (.sv 10)]) fun r _ => r.map HE.val = some (.sv 10) := by
  have hspells : Key.Spells [0xE9] (.sv [0xC3, 0xA9] true) := .svUtf8
  have hreads := (reads_of_run (k := ⟨.sv [0xC3, 0xA9] true, 0⟩) (additive .oa 8 (by decide))
    (fun _ => false) true [.store (.bytes [0xE9]) (.sv 10)]
    (by simp [Op.Ordinary, KeyArg.Honest, KeyArg.bytes, HeVal.isPlaceholder]) [0xE9] ([0xE9], false)
    (.inl ⟨hspells, rfl⟩) (.inl rfl)).1 .fetch (.inl rfl)
  exact wp_mono hreads (fun _ _ h => h.2.trans (by decide)) fun _ _ => id

end Characters

end XPerl.Hash
