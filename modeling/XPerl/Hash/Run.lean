import XPerl.Hash.Clearing
import XPerl.Hash.Reservation
import XPerl.Hash.Sweep

/-! Sequences of calls on one hash. -/

namespace XPerl.Hash

open XPerl.Framework XPerl.Framework.Exec

variable {V : Type} [DecidableEq V]

/-- A call on a hash. An lvalue fetch carries the scalar that it would create. -/
inductive Op (V : Type) where
  | fetch (k : KeyArg)
  | exists (k : KeyArg)
  | store (k : KeyArg) (val : HeVal V)
  | lvalue (k : KeyArg) (emptyHe : Bool) (sv : V)
  | delete (k : KeyArg) (discard : Bool)
  | clear
  | clearPlaceholders
  | ksplit (newmax : Int)
  | iterinit
  | iternext (wantPlaceholders : Bool)
  /-- SvREADONLY_on or SvREADONLY_off -/
  | setReadonly (on : Bool)
  deriving DecidableEq, Repr

/-- What a call returns. -/
inductive Outcome (V : Type) where
  | entry (he : Option (HE V))
  | value (sv : Option V)
  | count (n : Nat)
  | done
  deriving DecidableEq, Repr

variable (cfg : Config) (svReadonly : V → Bool)

def Op.call : Op V → HvM V (Outcome V)
  | .fetch k => .entry <$> hvCommon cfg noDestructor k .fetch
  | .exists k => .entry <$> hvCommon cfg noDestructor k .exists
  | .store k val => .entry <$> hvCommon cfg noDestructor k (.store val)
  | .lvalue k emptyHe sv => .entry <$> hvCommon cfg noDestructor k (.lvalue emptyHe sv)
  | .delete k discard => .value <$> hvDelete cfg svReadonly discard k
  | .clear => (fun _ => .done) <$> hvClear cfg svReadonly
  | .clearPlaceholders => (fun _ => .done) <$> hvClearPlaceholders cfg
  | .ksplit newmax => (fun _ => .done) <$> hvKsplit cfg newmax
  | .iterinit => .count <$> hvIterinit cfg
  | .iternext wantPlaceholders => .entry <$> hvIternextFlags cfg wantPlaceholders
  | .setReadonly on => (fun _ => .done) <$> modify fun hv => { hv with readonly := on }

/-- Whether a call switches the read-only flag. -/
def Op.setsReadonly : Op V → Bool
  | .setReadonly _ => true
  | _ => false

/-- A hash after a sequence of calls. -/
abbrev Op.run (hv : HV V) (ops : List (Op V)) : HV V := Exec.run (Op.call cfg svReadonly) hv ops

/-- A clear of a restricted hash that forgets the lazily deleted entry under the iterator. -/
def Op.dropsLazy (hv : HV V) : Op V → Prop
  | .clear => hv.readonly = true ∧ hv.keys ≠ 0 ∧ hv.lazydel = true ∧
      ∀ he ∈ hv.live, he.val.svReadonly svReadonly = false
  | _ => False

instance (hv : HV V) (op : Op V) : Decidable (op.dropsLazy svReadonly hv) := by
  unfold Op.dropsLazy
  split <;> infer_instance

/-- Runs without such a clear. -/
def Op.Keeps (hv : HV V) (ops : List (Op V)) : Prop :=
  Along (Op.call cfg svReadonly) (fun hv op => ¬op.dropsLazy svReadonly hv) hv ops

instance (hv : HV V) (ops : List (Op V)) : Decidable (Op.Keeps cfg svReadonly hv ops) :=
  inferInstanceAs (Decidable (Along ..))

/-- What a call makes of the view. -/
inductive Effect : Op V → View V → View V → Prop
  | same (op : Op V) (v : View V) : Effect op v v
  | store {k : KeyArg} {val : HeVal V} {v v' : View V}
      (h : v.Stores (commonQuery cfg k).stored val v') : Effect (.store k val) v v'
  | lvalue {k : KeyArg} {emptyHe : Bool} {sv : V} {v v' : View V}
      (h : v.Lvalues (commonQuery cfg k).stored emptyHe sv v') : Effect (.lvalue k emptyHe sv) v v'
  | adopt {k : KeyArg} {emptyHe : Bool} {sv : V} {v : View V} (hek : HEK)
      (h : v.find (commonQuery cfg k).id = some ⟨some hek, .placeholder⟩) :
      Effect (.lvalue k emptyHe sv) v (v.adopted (commonQuery cfg k).stored hek)
  | delete {k : KeyArg} {discard : Bool} {v v' : View V} (indexed : Bool)
      (h : v.Deletes (deleteQuery cfg k).id indexed v') : Effect (.delete k discard) v v'
  | cleared (v : View V) (h : ¬(v.readonly = true ∧ v.keys ≠ 0)) : Effect .clear v v.cleared
  | hides {v v' : View V} (h : Relation.ReflTransGen View.Hides v v')
      (hro : v.readonly = true ∧ v.keys ≠ 0) : Effect .clear v v'
  | hidden {v v' : View V} (h : Relation.ReflTransGen View.Hides v v')
      (hall : ∀ he ∈ v'.live, he.val.isPlaceholder = true) (hl : v.lazydel = false)
      (hro : v.readonly = true ∧ v.keys ≠ 0) : Effect .clear v { v' with current := none }
  | swept {v v' : View V} (h : Relation.ReflTransGen View.Sweeps v v') (placeholders : Option Int)
      (flags : Bool)
      (hx : v.Exact → ({ v' with placeholders := placeholders, hasKFlags := flags } : View V).Exact ∧
        ∀ he ∈ v'.live, he.val.isPlaceholder = false) :
      Effect .clearPlaceholders v { v' with placeholders := placeholders, hasKFlags := flags }
  | iterinit (v : View V) : Effect .iterinit v { v.flush with current := none }
  | iternext (want : Bool) (v : View V) (current : Option KeyId) :
      Effect (.iternext want) v { v.flush with current := current }
  | setReadonly (on : Bool) (v : View V) : Effect (.setReadonly on) v { v with readonly := on }

variable {cfg svReadonly} {hv : HV V} {op : Op V} {ops : List (Op V)}

def Changed (cfg : Config) (op : Op V) (hv hv' : HV V) : Prop :=
  WF cfg hv' ∧ Effect cfg op hv.view hv'.view

omit [DecidableEq V] in
theorem changed_of_simulates {α : Type} {P : α → HV V → Prop} {m : HvM V α} {a : ViewM V α}
    {f : α → Outcome V} (hsim : Simulates (Shows cfg) P m a hv hv.view)
    (ha : wp a hv.view (fun _ v' => Effect cfg op hv.view v') fun _ v' => Effect cfg op hv.view v') :
    wp (f <$> m) hv (fun _ hv' => Changed cfg op hv hv') fun _ hv' => Changed cfg op hv hv' := by
  rw [wp_map, wp_iff]
  obtain ⟨-, hwf, hview⟩ := hsim.outcome
  have heff := wp_stateAfter ha
  rw [← hview] at heff
  exact ⟨fun _ _ => ⟨hwf, heff⟩, fun _ _ => ⟨hwf, heff⟩⟩

theorem call_spec (wf : WF cfg hv) (hok : ¬op.dropsLazy svReadonly hv) :
    wp (op.call cfg svReadonly) hv (fun _ hv' => Changed cfg op hv hv')
      fun _ hv' => Changed cfg op hv hv' := by
  cases op with
  | fetch k =>
    rw [Op.call, wp_map]
    refine wp_mono (hvCommon_fetch_spec wf k) ?_ ?_
    · rintro r hv' ⟨rfl, -⟩
      exact ⟨wf, .same _ _⟩
    · rintro e hv' ⟨rfl, -⟩
      exact ⟨wf, .same _ _⟩
  | «exists» k =>
    rw [Op.call, wp_map]
    refine wp_of_returns (hvCommon_exists_spec _ wf k) ?_
    rintro r hv' ⟨rfl, -⟩
    exact ⟨wf, .same _ _⟩
  | store k val =>
    refine changed_of_simulates (hvCommonWith_store_spec _ wf k val) ?_
    refine wp_mono (View.store_spec _ _ _) (fun _ _ h => .store h.1) ?_
    rintro _ _ rfl
    exact .same _ _
  | lvalue k emptyHe sv =>
    refine changed_of_simulates (hvCommon_lvalue_spec wf k emptyHe sv) ?_
    refine wp_mono (View.lvalue_spec _ _ _ _) (fun _ _ h => .lvalue h.1) ?_
    rintro _ _ (rfl | ⟨hek, hf, rfl⟩)
    · exact .same _ _
    · exact .adopt hek hf
  | delete k discard =>
    refine changed_of_simulates (hvDelete_spec wf svReadonly discard k) ?_
    refine wp_mono (View.delete_spec _ _ _ _ _) (fun _ _ h => .delete _ h) ?_
    rintro _ _ rfl
    exact .same _ _
  | clear =>
    rw [Op.call, wp_map]
    refine wp_mono (hvClear_spec wf svReadonly) ?_ ?_
    · rintro - hv' ⟨hfree, hhide⟩
      by_cases hro : hv.readonly = true ∧ hv.keys ≠ 0
      · obtain ⟨hwritable, hdone⟩ := hhide hro
        have hl : hv.lazydel = false := by
          by_contra h
          exact hok ⟨hro.1, hro.2, by simpa using h, hwritable⟩
        obtain ⟨v, hv, hall, wf', hview'⟩ := hdone hl
        refine ⟨wf', ?_⟩
        rw [hview']
        exact .hidden hv hall hl hro
      · obtain ⟨wf', hview'⟩ := hfree hro
        refine ⟨wf', ?_⟩
        rw [hview']
        exact .cleared _ hro
    · rintro - hv' ⟨hro, hk, wf', hview', -⟩
      exact ⟨wf', .hides hview' ⟨hro, hk⟩⟩
  | clearPlaceholders =>
    rw [Op.call, wp_map]
    refine wp_of_returns (hvClearPlaceholders_spec wf) ?_
    rintro - hv' ⟨⟨v, placeholders, flags, hsweeps, wf', hview'⟩, hx⟩
    refine ⟨wf', ?_⟩
    have hlive : hv'.live = v.live := congrArg View.live hview'
    rw [hview', hlive] at hx
    rw [hview']
    exact .swept hsweeps placeholders flags hx
  | ksplit newmax =>
    rw [Op.call, wp_map]
    refine wp_mono (hvKsplit_spec wf newmax) ?_ ?_
    · rintro - hv' hkept
      exact ⟨hkept.wf, hkept.view ▸ .same _ _⟩
    · rintro - hv' hkept
      exact ⟨hkept.wf, hkept.view ▸ .same _ _⟩
  | iterinit =>
    rw [Op.call, wp_map]
    refine wp_of_returns (hvIterinit_spec wf) ?_
    rintro n hv' ⟨-, ⟨wf', hview'⟩, -⟩
    exact ⟨wf', hview' ▸ .iterinit _⟩
  | iternext want =>
    rw [Op.call, wp_map]
    refine wp_of_returns (hvIternextFlags_spec wf want) ?_
    rintro r hv' ⟨⟨wf', hview'⟩, -⟩
    exact ⟨wf', hview' ▸ .iternext want _ _⟩
  | setReadonly on =>
    rw [Op.call, wp_map, wp_modify]
    have hsame : SameStore hv { hv with readonly := on } := ⟨rfl, rfl, rfl, rfl, rfl⟩
    have hok := wf.view
    exact ⟨hsame.wf wf ⟨hok.heks, hok.keys, hok.distinct, hok.pending, hok.refs⟩, .setReadonly on _⟩

omit [DecidableEq V] in
theorem newHV_wf (cfg : Config) (shareKeys : Bool) : WF cfg (newHV shareKeys : HV V) := by
  refine ⟨⟨isBucketCount_eight, rfl⟩, ⟨?_, ?_, ?_⟩, ⟨?_, rfl, ?_, rfl, ?_⟩⟩ <;>
    simp [newHV, HV.riter, HV.eiter, HV.view, HV.live, HV.slots, HV.hvEntryLimit, HV.entries,
      View.held, HV.pendingHek]

omit [DecidableEq V] in
theorem Effect.readonly {v v' : View V} (h : Effect cfg op v v') (hop : op.setsReadonly = false) :
    v'.readonly = v.readonly := by
  cases h with
  | same => rfl
  | store h =>
    cases h with
    | existing hek old hf => exact View.overwritten_readonly _ _ _ _ _
    | new => rfl
  | lvalue h =>
    cases h with
    | ordinary hek old hf => exact View.adopted_readonly _ _ _
    | hidden hek val hf => exact View.overwritten_readonly _ _ _ _ _
    | new => rfl
  | adopt hek hf => exact View.adopted_readonly _ _ _
  | delete indexed h => cases h <;> rfl
  | cleared => rfl
  | hides h => rw [View.hides_frame h]
  | hidden h =>
    have hframe := View.hides_frame h
    exact (congrArg View.readonly hframe :)
  | swept h =>
    have hro := View.sweeps_readonly h
    exact hro
  | iterinit => rfl
  | iternext => rfl
  | setReadonly on v => simp [Op.setsReadonly] at hop

theorem keeps_of_writable (wf : WF cfg hv) (hro : hv.readonly = false)
    (hops : ∀ op ∈ ops, op.setsReadonly = false) : Op.Keeps cfg svReadonly hv ops := by
  induction ops generalizing hv with
  | nil => trivial
  | cons op ops ih =>
    have hok : ¬op.dropsLazy svReadonly hv := by
      unfold Op.dropsLazy
      split <;> simp [hro]
    obtain ⟨wf', heff⟩ := wp_stateAfter (call_spec wf hok)
    have hro' := heff.readonly (hops op (by simp))
    exact ⟨hok, ih wf' (hro'.trans hro) fun o ho => hops o (by simp [ho])⟩

theorem run_wf (wf : WF cfg hv) (hkeep : Op.Keeps cfg svReadonly hv ops) :
    WF cfg (Op.run cfg svReadonly hv ops) :=
  run_invariant (fun _ _ wf hok => (wp_stateAfter (call_spec wf hok)).1) wf hkeep

/-! A small run: an indexed hash whose first key is deleted under the iterator. -/

/-- Settings under which the hash of a key is the sum of its octets. -/
def additive (build : Build) (linearMax : Nat) (h : linearMax ≤ 8) : Config :=
  ⟨build, linearMax, h, fun octets => octets.foldl (fun h b => h + b.toUInt32) 0⟩

def deleteUnderIterator : List (Op Nat) :=
  [.store (.bytes [1]) (.sv 10), .store (.bytes [2]) (.sv 20), .iterinit, .iternext false,
    .delete (.bytes [1]) false]

end XPerl.Hash

/-! Chains of the entry index over whole runs. -/

namespace XPerl.Hash

open XPerl.Framework XPerl.Framework.Exec

variable {V : Type}

/-- Following the next links from a bucket visits the positions `l`, and then ends in zero. -/
def OA.Follows (oa : OA V) (b : Nat) (l : List Nat) : Prop :=
  BucketChains.Chain (oa.indexGet .chains) oa.buckets (oa.indexGet .chains b) l

/-- A live entry whose hash, masked by HvMAX, is `b`. -/
def HV.LiveIn (hv : HV V) (oa : OA V) (b i : Nat) : Prop :=
  ∃ he hek, hv.hvEntryFirst i = some he ∧ he.hek = some hek ∧ hek.hash.toNat &&& (oa.buckets - 1) = b

variable {cfg : Config} {hv : HV V} {oa : OA V} {b i : Nat}

theorem liveIn_iff : hv.LiveIn oa b i ↔ hv.homeOf oa i = some b := by
  constructor
  · rintro ⟨he, hek, hfirst, hhek, rfl⟩
    simp [HV.homeOf, hfirst, hhek, bucketOf]
  · intro h
    obtain ⟨he, hek, hfirst, hhek, hhome⟩ := homeOf_ne_none (by simp [h] : hv.homeOf oa i ≠ none)
    exact ⟨he, hek, hfirst, hhek, Option.some.inj (hhome.symm.trans h)⟩

theorem WF.chainsOk (wf : WF cfg hv) (hb : cfg.build = .chains) (hs : hv.storage = .indexed oa) :
    ChainsOk oa (hv.homeOf oa) := by
  have hx := (wf.indexed hs).index
  rwa [hb] at hx

theorem WF.follows (wf : WF cfg hv) (hb : cfg.build = .chains) (hs : hv.storage = .indexed oa)
    (hlt : b < oa.buckets) : ∃ l, oa.Follows b l ∧ l.Nodup ∧ ∀ i, i ∈ l ↔ hv.LiveIn oa b i := by
  obtain ⟨l, hl, hnd, hmem⟩ := (wf.chainsOk hb hs).chains b hlt
  exact ⟨l, hl, hnd, fun i => (hmem i).trans liveIn_iff.symm⟩

theorem WF.mem_follows (wf : WF cfg hv) (hb : cfg.build = .chains) (hs : hv.storage = .indexed oa)
    (hlt : b < oa.buckets) {l : List Nat} (hl : oa.Follows b l) : i ∈ l ↔ hv.LiveIn oa b i := by
  obtain ⟨l', hl', -, hmem⟩ := wf.follows hb hs hlt
  rw [BucketChains.chain_unique hl hl']
  exact hmem i

theorem WF.exists_unique_chain (wf : WF cfg hv) (hb : cfg.build = .chains)
    (hs : hv.storage = .indexed oa) {he : HE V} (hi : hv.hvEntryFirst i = some he) :
    ∃! b, b < oa.buckets ∧ ∃ l, oa.Follows b l ∧ i ∈ l := by
  obtain ⟨hek, hhek⟩ := wf.hek_of_first hi
  have hin : hv.LiveIn oa (bucketOf hek.hash oa.buckets) i := ⟨he, hek, hi, hhek, rfl⟩
  have hlt := bucketOf_lt (wf.indexed hs).sized.buckets hek.hash
  obtain ⟨l, hl, -, hmem⟩ := wf.follows hb hs hlt
  refine ⟨_, ⟨hlt, l, hl, (hmem i).mpr hin⟩, ?_⟩
  rintro b' ⟨hlt', l', hl', hil'⟩
  have hin' := (wf.mem_follows hb hs hlt' hl').mp hil'
  exact Option.some.inj ((liveIn_iff.mp hin').symm.trans (liveIn_iff.mp hin))

theorem WF.identifier_fits (wf : WF cfg hv) (hb : cfg.build = .chains)
    (hs : hv.storage = .indexed oa) {raw : Nat} (hraw : raw ∈ oa.indices) :
    raw ≤ oa.capacity ∧ raw < 256 ^ oa.width .chains := by
  have hle := (wf.chainsOk hb hs).bound raw hraw
  exact ⟨hle, chains_fits (wf.indexed hs).sized.le_max hle⟩

theorem WF.oaFind_ends (wf : WF cfg hv) (k : KeyId) : (oaFind cfg.build hv k).isSome = true := by
  rcases oaFind_spec wf k with ⟨i, he, slot, -, -, hfind, -⟩ | ⟨slot, -, hfind, -⟩ <;> simp [hfind]

theorem LiveIn.not_deleted (hs : hv.storage = .indexed oa) (h : hv.LiveIn oa b i) :
    (∃ he, oa.entries[i]? = some he ∧ he.hek.isSome = true) ∧
      ¬(hv.lazydel = true ∧ hv.isCurrent i = true) := by
  obtain ⟨he, hek, hfirst, hhek, -⟩ := h
  have hent := entry_of_first hfirst
  rw [entries_indexed hs] at hent
  refine ⟨⟨he, hent, by simp [hhek]⟩, fun ⟨hl, hc⟩ => ?_⟩
  rw [hvEntryFirst_indexed hs, hent] at hfirst
  simp [hl, hc, Option.filter] at hfirst

variable [DecidableEq V] {svReadonly : V → Bool} {shareKeys : Bool} {ops : List (Op V)}

/-- In every state that a run reaches, each bucket chain holds the live entries of its bucket,
once each, with identifiers that fit, and every lookup ends. -/
theorem chains_of_run (hb : cfg.build = .chains) (hops : ∀ op ∈ ops, op.setsReadonly = false)
    (hrun : Op.run cfg svReadonly (newHV shareKeys) ops = hv) (hs : hv.storage = .indexed oa) :
    (∀ b < oa.buckets, ∃ l, oa.Follows b l ∧ l.Nodup ∧ ∀ i, i ∈ l ↔ hv.LiveIn oa b i) ∧
    (∀ i he, hv.hvEntryFirst i = some he → ∃! b, b < oa.buckets ∧ ∃ l, oa.Follows b l ∧ i ∈ l) ∧
    (∀ b < oa.buckets, ∀ l, oa.Follows b l → ∀ i ∈ l,
      (∃ he, oa.entries[i]? = some he ∧ he.hek.isSome = true) ∧
        ¬(hv.lazydel = true ∧ hv.isCurrent i = true)) ∧
    (∀ raw ∈ oa.indices, raw ≤ oa.capacity ∧ raw < 256 ^ oa.width .chains) ∧
    ∀ k, (oaFind .chains hv k).isSome = true := by
  have wf₀ := newHV_wf (V := V) cfg shareKeys
  have wf : WF cfg hv := hrun ▸ run_wf wf₀ (keeps_of_writable wf₀ rfl hops)
  refine ⟨fun b hlt => wf.follows hb hs hlt, fun i he hi => wf.exists_unique_chain hb hs hi,
    fun b hlt l hl i hi => ?_, fun raw hraw => wf.identifier_fits hb hs hraw, fun k => ?_⟩
  · exact LiveIn.not_deleted hs ((wf.mem_follows hb hs hlt hl).mp hi)
  · rw [← hb]
    exact wf.oaFind_ends k

theorem chains_of_delete_under_iterator :
    ∃ oa, (Op.run (additive .chains 0 (by decide)) (fun _ => false) (newHV true)
        deleteUnderIterator).storage = .indexed oa ∧
      ∀ k, (oaFind .chains (Op.run (additive .chains 0 (by decide)) (fun _ => false) (newHV true)
        deleteUnderIterator) k).isSome = true := by
  have hs : (Op.run (additive .chains 0 (by decide)) (fun _ => false) (newHV true)
      deleteUnderIterator).storage = .indexed
        { entries := [⟨some ⟨1, [1], false, false, false, 0⟩, .null⟩,
            ⟨some ⟨2, [2], false, false, false, 1⟩, .sv 20⟩]
          buckets := 8
          capacity := 8
          tombstones := 0
          indices := [0, 0, 2] ++ List.replicate 13 0 } := by
    decide +kernel
  exact ⟨_, hs, (chains_of_run rfl (by decide) rfl hs).2.2.2.2⟩

end XPerl.Hash
