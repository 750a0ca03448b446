import XPerl.Hash.Run

/-! The placeholder count over whole runs. -/

namespace XPerl.Hash

open XPerl.Framework XPerl.Framework.Exec

variable {V : Type} {cfg : Config} {op : Op V} {hv hv' : HV V} {v v' : View V} {k : StoredKey}
  {hek : HEK} {old val : HeVal V}

namespace View

theorem adopted_placeholders (v : View V) (k : StoredKey) (hek : HEK) :
    (v.adopted k hek).placeholders = v.placeholders := by
  rw [adopted_frame]

theorem Exact.adopted (hx : v.Exact) (h : v.Ok) (hf : v.find k.id = some ⟨some hek, old⟩) :
    (v.adopted k hek).Exact := by
  unfold Exact
  rw [adopted_placeholders, adopted_count h hf]
  exact hx

theorem Exact.overwritten (hx : v.Exact) (h : v.Ok) (hf : v.find k.id = some ⟨some hek, old⟩)
    (hval : val.isPlaceholder = true → old.isPlaceholder = true) :
    (v.overwritten k hek old val).Exact := by
  have hok := adopted_ok h hf
  have hf' : (v.adopted k hek).find k.id = some ⟨some (v.adoptedHek k hek), old⟩ := by
    rw [find_adopted hf, if_pos rfl]
  have hset := fun n hn => (hx.adopted h hf).setVal hok hf' val (n := n) hn
  unfold View.overwritten Exact
  cases hold : old.isPlaceholder with
  | true =>
    cases hnew : val.isPlaceholder with
    | true => simpa [hold, hnew] using hset 0 (by simp [hold, hnew])
    | false => exact hset (-1) (by simp [hold, hnew])
  | false =>
    have hnew : val.isPlaceholder = false := by
      by_contra hcon
      simp [hval (by simpa using hcon)] at hold
    simpa [hold, hnew] using hset 0 (by simp [hold, hnew])

theorem Exact.inserted (hx : v.Exact) (k : StoredKey) (val : HeVal V) :
    (v.inserted k val).Exact := by
  have hp : v.placeholders.getD 0 = placeholderCount v.live := hx
  have hcount : placeholderCount (v.live ++ [v.fresh k val]) =
      placeholderCount v.live + if val.isPlaceholder then 1 else 0 := by
    simp [placeholderCount, List.countP_append, List.countP_cons, View.fresh]
  unfold Exact View.inserted
  simp only [hcount]
  cases val.isPlaceholder with
  | true => simp [hp]
  | false => simpa using hp

theorem Exact.lvalues {emptyHe : Bool} {sv : V} (hx : v.Exact) (h : v.Ok)
    (hl : v.Lvalues k emptyHe sv v') : v'.Exact := by
  cases hl with
  | ordinary hek old hf hord => exact hx.adopted h hf
  | hidden hek val hf hval => exact hx.overwritten h hf fun _ => rfl
  | new hf hro => exact hx.inserted k _

theorem Exact.deletes {k : KeyId} {indexed : Bool} (hx : v.Exact) (h : v.Ok)
    (hd : v.Deletes k indexed v') : v'.Exact := by
  cases hd with
  | absent => exact hx
  | hidden he hf hord hro => exact hx.hides h ⟨k, he, hf, hord, rfl⟩
  | removed hek val hf hord hro =>
    have hcount := count_erase h hf
    have hp : v.placeholders.getD 0 = placeholderCount v.live := hx
    simp only [hord, Bool.false_eq_true, if_false, Nat.add_zero] at hcount
    show v.placeholders.getD 0 = placeholderCount (KeyedList.erase HE.id v.live (some k))
    rw [hcount, hp]

end View

/-- A store of a placeholder over an ordinary value. -/
def Op.hidesUncounted (cfg : Config) (hv : HV V) : Op V → Prop
  | .store k .placeholder => (hv.view.lookup (commonQuery cfg k).id).isSome = true
  | _ => False

instance (hv : HV V) (op : Op V) : Decidable (op.hidesUncounted cfg hv) :=
  match op with
  | .store _ .placeholder => instDecidableEqBool _ _
  | .store _ .null | .store _ (.sv _) => instDecidableFalse
  | .fetch _ | .exists _ | .lvalue _ _ _ | .delete _ _ | .clear => instDecidableFalse
  | .clearPlaceholders | .ksplit _ | .iterinit | .iternext _ | .setReadonly _ => instDecidableFalse

theorem Effect.exact (heff : Effect cfg op hv.view v') (h : hv.view.Ok) (hx : hv.view.Exact)
    (hop : ¬op.hidesUncounted cfg hv) : v'.Exact := by
  cases heff with
  | same => exact hx
  | store hs =>
    cases hs with
    | existing hek old hf =>
      refine hx.overwritten h hf fun hp => ?_
      obtain rfl := isPlaceholder_iff.mp hp
      by_contra hord
      exact hop (by simp_all [Op.hidesUncounted, View.lookup, Query.stored])
    | new hf hro => exact hx.inserted _ _
  | lvalue hl => exact hx.lvalues h hl
  | adopt hek hf => exact hx.adopted h hf
  | delete indexed hd => exact hx.deletes h hd
  | cleared hro =>
    show (hv.view.placeholders.map fun _ => (0 : Int)).getD 0 = _
    cases hv.view.placeholders <;> rfl
  | hides hs => exact (View.Hides.exact hx h hs).1
  | hidden hs => exact (View.Hides.exact hx h hs).1
  | swept hs placeholders flags hsx => exact (hsx hx).1
  | iterinit => exact hx
  | iternext => exact hx
  | setReadonly => exact hx

/-- No call but hv_iternext moves the iterator onto an entry. -/
def Op.advances : Op V → Bool
  | .iternext _ => true
  | _ => false

theorem Effect.current (heff : Effect cfg op v v') (hop : op.advances = false)
    (hc : v.current = none) (hl : v.lazydel = false) : v'.current = none ∧ v'.lazydel = false := by
  have hadopted : ∀ k hek, (v.adopted k hek).current = none ∧ (v.adopted k hek).lazydel = false := by
    intro k hek
    rw [View.adopted_frame]
    exact ⟨hc, hl⟩
  have hover : ∀ k hek old val, (v.overwritten k hek old val).current = none ∧
      (v.overwritten k hek old val).lazydel = false := by
    intro k hek old val
    unfold View.overwritten
    split <;> exact hadopted k hek
  cases heff with
  | same => exact ⟨hc, hl⟩
  | store hs =>
    cases hs with
    | existing hek old hf => exact hover _ _ _ _
    | new => exact ⟨hc, hl⟩
  | lvalue hs =>
    cases hs with
    | ordinary hek old hf => exact hadopted _ _
    | hidden hek val hf => exact hover _ _ _ _
    | new => exact ⟨hc, hl⟩
  | adopt => exact hadopted _ _
  | delete indexed hd =>
    cases hd with
    | absent => exact ⟨hc, hl⟩
    | hidden => exact ⟨hc, hl⟩
    | removed => simp [View.remove, hc, hl]
  | cleared => exact ⟨rfl, rfl⟩
  | hides hs =>
    rw [View.hides_frame hs]
    exact ⟨hc, hl⟩
  | hidden hs =>
    have hframe := View.hides_frame hs
    exact ⟨rfl, (congrArg View.lazydel hframe :).trans hl⟩
  | swept hs =>
    have hstill := View.sweeps_current hs hc hl
    exact hstill
  | iterinit => exact ⟨rfl, rfl⟩
  | iternext => simp [Op.advances] at hop
  | setReadonly => exact ⟨hc, hl⟩

variable [DecidableEq V] {svReadonly : V → Bool} {shareKeys : Bool} {ops : List (Op V)}

/-- What holds along a run with an iterator that stands nowhere. -/
structure Accounted (cfg : Config) (hv : HV V) : Prop where
  wf : WF cfg hv
  current : hv.view.current = none
  lazydel : hv.view.lazydel = false
  exact : hv.view.Exact

theorem Accounted.step (h : Accounted cfg hv) (hadv : op.advances = false)
    (hop : ¬op.hidesUncounted cfg hv) : Accounted cfg (stateAfter (op.call cfg svReadonly) hv) := by
  have hkeeps : ¬op.dropsLazy svReadonly hv := by
    have hl : hv.lazydel = false := h.lazydel
    unfold Op.dropsLazy
    split <;> simp [hl]
  obtain ⟨wf', heff⟩ := wp_stateAfter (call_spec h.wf hkeeps)
  obtain ⟨hc, hl⟩ := heff.current hadv h.current h.lazydel
  exact ⟨wf', hc, hl, heff.exact h.wf.view h.exact hop⟩

/-- Whether hv_exists reports the key of an entry. -/
def HV.reports (cfg : Config) (hv : HV V) (he : HE V) : Bool :=
  he.hek.any fun hek =>
    match outcome (hvCommon cfg noDestructor ⟨.shared hek, 0⟩ .exists) hv with
    | .ok r => r.isSome
    | .error _ => false

theorem reports_eq (wf : WF cfg hv) {he : HE V} (hm : he ∈ hv.live) :
    hv.reports cfg he = !he.val.isPlaceholder := by
  obtain ⟨i, hi⟩ := mem_live.mp hm
  obtain ⟨hek, hhek⟩ := wf.hek_of_first hi
  have hfind : hv.view.find hek.id = some he :=
    wf.view.find_of_mem hm (by simp [HE.id, hhek])
  have hspec := hvCommon_exists_spec noDestructor wf ⟨.shared hek, 0⟩
  rw [commonQuery_shared_id] at hspec
  unfold HV.reports
  rw [hhek, Option.any_some]
  cases hout : outcome (hvCommon cfg noDestructor ⟨.shared hek, 0⟩ .exists) hv with
  | error e => exact ((wp_iff.mp hspec).2 e hout).elim
  | ok r =>
    obtain ⟨-, rfl⟩ := (wp_iff.mp hspec).1 r hout
    simp only [View.lookup, hfind]
    cases hp : he.val.isPlaceholder <;> simp [hp]

/-- Both counts of a run are exact, as long as no store puts a placeholder in the place of an
ordinary value. -/
theorem counts_of_run (hadv : ∀ op ∈ ops, op.advances = false)
    (hcounted : Along (Op.call cfg svReadonly) (fun hv op => ¬op.hidesUncounted cfg hv)
      (newHV shareKeys) ops) :
    let hv := Op.run cfg svReadonly (newHV shareKeys) ops
    hv.hvPlaceholdersGet = placeholderCount hv.live ∧
      hv.hvUsedKeys = hv.live.countP (hv.reports cfg) := by
  intro hv
  have hstart : Accounted cfg (newHV shareKeys : HV V) := ⟨newHV_wf cfg shareKeys, rfl, rfl, rfl⟩
  have hend : Accounted cfg hv :=
    run_invariant (fun _ _ h hop => h.step hop.2 hop.1) hstart (hcounted.and hadv)
  have hget : hv.hvPlaceholdersGet = placeholderCount hv.live := hend.exact
  refine ⟨hget, ?_⟩
  have hcount : hv.live.countP (hv.reports cfg) = hv.live.countP fun he => !he.val.isPlaceholder :=
    List.countP_congr fun he hm => by rw [reports_eq hend.wf hm]
  have hsum := List.length_eq_countP_add_countP (fun he : HE V => he.val.isPlaceholder) (l := hv.live)
  rw [hcount, HV.hvUsedKeys, hget, hend.wf.keys_eq]
  unfold placeholderCount
  simp only [Bool.not_eq_true, Bool.decide_eq_false] at hsum
  omega

/-- A store of a placeholder over a placeholder, and its removal by an lvalue fetch. -/
theorem counts_of_small_run :
    let hv := Op.run (additive .chains 2 (by decide)) (fun _ => false) (newHV true)
      [.store (.bytes [1]) .placeholder, .store (.bytes [1]) .placeholder,
        .lvalue (.bytes [1]) false 10, .store (.bytes [2]) .placeholder, .setReadonly true,
        .store (.bytes [3]) (.sv 30), .delete (.bytes [1]) false, .clearPlaceholders]
    hv.hvPlaceholdersGet = placeholderCount hv.live ∧
      hv.hvUsedKeys = hv.live.countP (hv.reports (additive .chains 2 (by decide))) :=
  counts_of_run (by decide) (by decide +kernel)

/-- A placeholder stored over an ordinary value is not counted. -/
theorem count_after_hiding_store :
    let hv := Op.run (additive .chains 2 (by decide)) (fun _ => false) (newHV true)
      [.store (.bytes [1]) (.sv 10), .store (.bytes [1]) .placeholder]
    hv.hvPlaceholdersGet = 0 ∧ placeholderCount hv.live = 1 ∧
      hv.hvUsedKeys = 1 ∧ hv.live.countP (hv.reports (additive .chains 2 (by decide))) = 0 := by
  decide +kernel

end XPerl.Hash
