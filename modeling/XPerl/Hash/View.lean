import XPerl.Framework.KeyedList
import XPerl.Hash.Index

/-! What a hash is for: an ordered list of live entries with counters and flags. -/

namespace XPerl.Hash

open XPerl.Framework XPerl.Framework.Exec

variable {V : Type}

/-- Identity of the key of an entry. -/
def HE.id (he : HE V) : Option KeyId := he.hek.map HEK.id

/-- The key reference that an entry owns. -/
def HE.ref (he : HE V) : Option Nat := he.hek.map HEK.ref

/-- A hash without its storage: the live entries, the iterator's key, a lazily deleted key, counters
and flags, and the key references released so far. -/
structure View (V : Type) where
  live : List (HE V)
  current : Option KeyId
  pending : Option HEK
  keys : Nat
  placeholders : Option Int
  readonly : Bool
  lazydel : Bool
  hasKFlags : Bool
  shareKeys : Bool
  freed : List Nat
  nextRef : Nat

def View.held (v : View V) : List Nat := v.live.filterMap HE.ref ++ (v.pending.map HEK.ref).toList

/-- Keys are distinct and counted, and every key reference taken is held once or was
released once. -/
structure View.Ok (v : View V) : Prop where
  heks : ∀ he ∈ v.live, he.hek.isSome = true
  keys : v.keys = v.live.length
  distinct : (v.live.map HE.id).Nodup
  pending : v.pending.isSome = v.lazydel
  refs : (v.held ++ v.freed).Perm (List.range v.nextRef)

def View.HashesOk (cfg : Config) (v : View V) : Prop :=
  ∀ he ∈ v.live, ∀ hek, he.hek = some hek → hek.hash = cfg.perlHash hek.key

/-- A key in the form in which it is stored. -/
structure StoredKey where
  id : KeyId
  wasUtf8 : Bool
  deriving DecidableEq, Repr

def StoredKey.hek (k : StoredKey) (notShared : Bool) (ref : Nat) : HEK :=
  ⟨k.id.hash, k.id.key, k.id.utf8, k.wasUtf8, notShared, ref⟩

def StoredKey.flagged (k : StoredKey) : Bool := k.id.utf8 || k.wasUtf8

abbrev ViewM (V : Type) := EStateM PerlError (View V)

namespace View

def find (v : View V) (k : KeyId) : Option (HE V) := KeyedList.find HE.id v.live (some k)

/-- The live entry with a key, if its value is not a placeholder. -/
def lookup (v : View V) (k : KeyId) : Option (HE V) :=
  (v.find k).filter fun he => !he.val.isPlaceholder

/-- Change the entry with a key. -/
def update (v : View V) (k : KeyId) (f : HE V → HE V) : View V :=
  { v with live := KeyedList.update HE.id v.live (some k) f }

def setVal (v : View V) (k : KeyId) (val : HeVal V) : View V :=
  v.update k fun he => { he with val := val }

def addPlaceholders (v : View V) (n : Int) : View V :=
  { v with placeholders := some (v.placeholders.getD 0 + n) }

def adopt (k : StoredKey) (hek : HEK) : ViewM V Unit :=
  if hek.wasUtf8 ≠ k.wasUtf8 then do
    if hek.notShared then
      modify fun v => v.update k.id fun he => { he with hek := some { hek with wasUtf8 := k.wasUtf8 } }
    else
      throwIf (k.id.key.length > i32Max) .keyLengthOutOfRange
      modify fun v =>
        { v.update k.id fun he => { he with hek := some (k.hek false v.nextRef) } with
          freed := v.freed ++ [hek.ref], nextRef := v.nextRef + 1 }
    modify fun v => { v with hasKFlags := v.hasKFlags || k.flagged }
  else pure ()

def insert (k : StoredKey) (val : HeVal V) : ViewM V (Option (HE V)) := do
  let v ← get
  throwIf (v.shareKeys = true ∧ k.id.key.length > i32Max) .keyLengthOutOfRange
  let he : HE V := ⟨some (k.hek (!v.shareKeys) v.nextRef), val⟩
  set ({ v with
    live := v.live ++ [he]
    keys := v.keys + 1
    nextRef := v.nextRef + 1
    placeholders := if val.isPlaceholder then some (v.placeholders.getD 0 + 1) else v.placeholders
    hasKFlags := v.hasKFlags || k.flagged } : View V)
  pure (some he)

/-- Store into an existing entry, or a new one. -/
def store (k : StoredKey) (val : HeVal V) : ViewM V (Option (HE V)) := do
  let v ← get
  match v.find k.id with
  | some ⟨some hek, old⟩ =>
    adopt k hek
    modify fun v =>
      (if old.isPlaceholder && !val.isPlaceholder then v.addPlaceholders (-1) else v).setVal k.id val
    (·.find k.id) <$> get
  | _ =>
    throwIf (v.readonly = true) (.keyAccessDisallowed k.id.key k.id.utf8)
    throwIf (v.keys ≥ hvMaxKeys) .hashCapacityExceeded
    insert k val

/-- Fetch an entry to assign to it, creating it if the key is missing or a placeholder. -/
def lvalue (k : StoredKey) (emptyHe : Bool) (sv : V) : ViewM V (Option (HE V)) := do
  let v ← get
  let fresh := if emptyHe then HeVal.null else .sv sv
  match v.find k.id with
  | some ⟨some hek, old⟩ =>
    adopt k hek
    if old.isPlaceholder then
      if v.placeholders.isSome then
        throwIf (v.keys ≥ hvMaxKeys) .hashCapacityExceeded
        store k fresh
      else
        modify fun v => (v.addPlaceholders (-1)).setVal k.id (.sv sv)
        (·.find k.id) <$> get
    else (·.find k.id) <$> get
  | _ =>
    throwIf (v.readonly = true) (.keyAccessDisallowed k.id.key k.id.utf8)
    throwIf (v.keys ≥ hvMaxKeys) .hashCapacityExceeded
    if v.placeholders.isSome then store k fresh else insert k fresh

/-- Remove an entry. An indexed hash keeps the key of the iterator's entry until the
iterator moves on. -/
def remove (v : View V) (k : KeyId) (hek : HEK) (indexed : Bool) : View V :=
  let retired := indexed && decide (v.current = some k)
  { v with
    live := KeyedList.erase HE.id v.live (some k)
    keys := v.keys - 1
    current := if v.current = some k then none else v.current
    pending := if retired then some hek else v.pending
    lazydel := if retired then true else v.lazydel
    freed := if retired then v.freed else v.freed ++ [hek.ref] }

/-- Delete an entry. A placeholder has been deleted already, and a restricted hash keeps
one in the place of the value. -/
def delete (svReadonly : V → Bool) (discard : Bool) (k : KeyId) (indexed : Bool) :
    ViewM V (Option V) := do
  let v ← get
  match v.find k with
  | some ⟨some hek, val⟩ =>
    if val.isPlaceholder then pure none
    else
      throwIf (v.readonly = true ∧ val.svReadonly svReadonly = true)
        (.readOnlyKeyDeletion k.key k.utf8)
      set (if v.readonly then (v.setVal k .placeholder).addPlaceholders 1
        else { v.remove k hek indexed with
          hasKFlags := v.hasKFlags && decide (v.keys - 1 ≠ 0) })
      pure (if discard then none else val.toSv)
  | _ =>
    throwIf (v.readonly = true ∧ v.keys ≠ 0) (.keyDeletionDisallowed k.key k.utf8)
    pure none

def emptied (v : View V) : View V :=
  { v with
    live := []
    current := none
    pending := none
    keys := 0
    lazydel := false
    freed := v.freed ++ (v.pending.map HEK.ref).toList ++ v.live.filterMap HE.ref }

def cleared (v : View V) : View V :=
  { v.emptied with placeholders := v.placeholders.map fun _ => 0, hasKFlags := false }

def Hides (v v' : View V) : Prop :=
  ∃ k he, v.find k = some he ∧ he.val.isPlaceholder = false ∧
    v' = (v.setVal k .placeholder).addPlaceholders 1

theorem hides_frame {v v' : View V} (h : Relation.ReflTransGen Hides v v') :
    v' = { v with live := v'.live, placeholders := v'.placeholders } := by
  induction h with
  | refl => rfl
  | tail _ hstep ih =>
    obtain ⟨k, he, -, -, rfl⟩ := hstep
    rw [ih]
    rfl

def Sweeps (v v' : View V) : Prop :=
  ∃ k hek indexed flags, v.find k = some ⟨some hek, .placeholder⟩ ∧
    v' = { (v.remove k hek indexed).addPlaceholders (-1) with hasKFlags := flags }

theorem sweeps_readonly {v v' : View V} (h : Relation.ReflTransGen Sweeps v v') :
    v'.readonly = v.readonly := by
  induction h with
  | refl => rfl
  | tail _ hstep ih =>
    obtain ⟨k, hek, indexed, flags, -, rfl⟩ := hstep
    exact ih

theorem sweeps_current {v v' : View V} (h : Relation.ReflTransGen Sweeps v v')
    (hc : v.current = none) (hl : v.lazydel = false) : v'.current = none ∧ v'.lazydel = false := by
  induction h with
  | refl => exact ⟨hc, hl⟩
  | tail _ hstep ih =>
    obtain ⟨k, hek, indexed, flags, -, rfl⟩ := hstep
    simp [remove, addPlaceholders, ih.1, ih.2]

def flush (v : View V) : View V :=
  { v with
    pending := none
    lazydel := false
    freed := v.freed ++ (v.pending.map HEK.ref).toList }

theorem mem_of_find {v : View V} {k : KeyId} {he : HE V} (h : v.find k = some he) :
    he ∈ v.live ∧ he.id = some k := ⟨KeyedList.mem_of_find h, KeyedList.key_of_find h⟩

namespace Ok

variable {v : View V} (h : v.Ok) {k : KeyId} {he : HE V} {hek : HEK}
include h

theorem find_of_mem (hm : he ∈ v.live) (hid : he.id = some k) : v.find k = some he :=
  KeyedList.find_eq_some h.distinct hm hid

theorem update {f : HE V → HE V} (hm : he ∈ v.live) (hid : he.id = some k)
    (hfid : (f he).id = some k) (hfref : (f he).ref = he.ref) : (v.update k f).Ok := by
  obtain ⟨l₁, l₂, hl, -, hu⟩ := KeyedList.split h.distinct hm hid
  obtain ⟨hheks, hkeys, hdist, hpend, hrefs⟩ := h
  have hsome : (f he).hek.isSome = true := by
    cases hk : (f he).hek with
    | none => simp [HE.id, hk] at hfid
    | some hek => rfl
  rw [hl] at hheks hkeys hdist
  simp only [View.held, hl] at hrefs
  refine ⟨?_, ?_, ?_, hpend, ?_⟩ <;> simp only [View.held, View.update, hu]
  · intro x hx
    rcases List.mem_append.mp hx with hx | hx
    · exact hheks x (by simp [hx])
    · rcases List.mem_cons.mp hx with rfl | hx
      · exact hsome
      · exact hheks x (by simp [hx])
  · simpa using hkeys
  · simpa [hid, hfid] using hdist
  · simpa only [List.filterMap_append, List.filterMap_cons, hfref] using hrefs

theorem share {f : HE V → HE V} (hm : he ∈ v.live) (hhek : he.hek = some hek)
    (hid : he.id = some k) (hfid : (f he).id = some k) (hfref : (f he).ref = some v.nextRef) :
    ({ v.update k f with freed := v.freed ++ [hek.ref], nextRef := v.nextRef + 1 } : View V).Ok := by
  obtain ⟨l₁, l₂, hl, -, hu⟩ := KeyedList.split h.distinct hm hid
  obtain ⟨hheks, hkeys, hdist, hpend, hrefs⟩ := h
  have hsome : (f he).hek.isSome = true := by
    cases hk : (f he).hek with
    | none => simp [HE.id, hk] at hfid
    | some hek => rfl
  have href : he.ref = some hek.ref := by simp [HE.ref, hhek]
  rw [hl] at hheks hkeys hdist
  simp only [View.held, hl, List.filterMap_append, List.filterMap_cons, href] at hrefs
  refine ⟨?_, ?_, ?_, hpend, ?_⟩ <;> simp only [View.held, View.update, hu]
  · intro x hx
    rcases List.mem_append.mp hx with hx | hx
    · exact hheks x (by simp [hx])
    · rcases List.mem_cons.mp hx with rfl | hx
      · exact hsome
      · exact hheks x (by simp [hx])
  · simpa using hkeys
  · simpa [hid, hfid] using hdist
  · rw [List.perm_iff_count] at hrefs ⊢
    intro a
    have := hrefs a
    simp only [List.filterMap_append, List.filterMap_cons, hfref, List.range_succ,
      List.count_append, List.count_cons, List.count_nil] at this ⊢
    omega

theorem insert (hhek : he.hek = some hek) (hnew : v.find hek.id = none)
    (href : hek.ref = v.nextRef) :
    ({ v with live := v.live ++ [he], keys := v.keys + 1, nextRef := v.nextRef + 1 } : View V).Ok := by
  have hid : he.id = some hek.id := by simp [HE.id, hhek]
  have heref : he.ref = some v.nextRef := by simp [HE.ref, hhek, href]
  refine ⟨?_, ?_, ?_, h.pending, ?_⟩
  · intro x hx
    rcases List.mem_append.mp hx with hx | hx
    · exact h.heks x hx
    · rw [List.mem_singleton.mp hx, hhek]
      rfl
  · simpa using h.keys
  · exact KeyedList.nodup_append h.distinct (by rw [hid]; exact hnew)
  · have hrefs := h.refs
    rw [List.perm_iff_count] at hrefs ⊢
    intro a
    have := hrefs a
    simp only [View.held, List.filterMap_append, List.filterMap_cons, List.filterMap_nil, heref,
      List.range_succ, List.count_append] at this ⊢
    omega

theorem remove (hm : he ∈ v.live) (hhek : he.hek = some hek) (indexed : Bool)
    (hcur : v.current = some hek.id → v.pending = none) : (v.remove hek.id hek indexed).Ok := by
  have hid : he.id = some hek.id := by simp [HE.id, hhek]
  have href : he.ref = some hek.ref := by simp [HE.ref, hhek]
  obtain ⟨l₁, l₂, hl, he', -⟩ := KeyedList.split h.distinct hm hid
  have hnd := KeyedList.nodup_erase (c := some hek.id) h.distinct
  obtain ⟨hheks, hkeys, hdist, hpend, hrefs⟩ := h
  rw [hl] at hheks hkeys
  simp only [View.held, hl, List.filterMap_append, List.filterMap_cons, href] at hrefs
  have hlen : v.keys - 1 = (l₁ ++ l₂).length := by
    rw [hkeys]
    simp
  have hsub : ∀ x ∈ l₁ ++ l₂, x.hek.isSome = true := fun x hx => hheks x (by
    rcases List.mem_append.mp hx with hx | hx <;> simp [hx])
  rw [he'] at hnd
  cases hc : indexed && decide (v.current = some hek.id) with
  | true =>
    have hnone := hcur (by simpa using (Bool.and_eq_true_iff.mp hc).2)
    simp only [View.remove, hc, if_true]
    refine ⟨by simpa only [he'] using hsub, by simpa only [he'] using hlen,
      by simpa only [he'] using hnd, rfl, ?_⟩
    simp only [View.held, he', hnone, Option.map_none, Option.toList_none] at hrefs ⊢
    rw [List.perm_iff_count] at hrefs ⊢
    intro a
    have := hrefs a
    simp only [List.filterMap_append, Option.map_some, Option.toList_some, List.count_append,
      List.count_cons, List.count_nil] at this ⊢
    omega
  | false =>
    simp only [View.remove, hc, Bool.false_eq_true, if_false]
    refine ⟨by simpa only [he'] using hsub, by simpa only [he'] using hlen,
      by simpa only [he'] using hnd, hpend, ?_⟩
    simp only [View.held, he']
    rw [List.perm_iff_count] at hrefs ⊢
    intro a
    have := hrefs a
    simp only [List.filterMap_append, List.count_append, List.count_cons,
      List.count_nil] at this ⊢
    omega

theorem flush : v.flush.Ok := by
  refine ⟨h.heks, h.keys, h.distinct, rfl, ?_⟩
  have hrefs := h.refs
  rw [List.perm_iff_count] at hrefs ⊢
  intro a
  have := hrefs a
  simp only [View.held, View.flush, Option.map_none, Option.toList_none, List.count_append,
    List.count_nil] at this ⊢
  omega

end Ok

end View

/-! The placeholder count, as the operations on the view change it. -/

def placeholderCount (es : List (HE V)) : Nat := es.countP fun he => he.val.isPlaceholder

namespace View

/-- HvPLACEHOLDERS_get equals the number of placeholders. -/
def Exact (v : View V) : Prop := v.placeholders.getD 0 = placeholderCount v.live

variable {v v' : View V} {k : KeyId} {he : HE V} {hek : HEK}

theorem count_update (h : v.Ok) (hf : v.find k = some he) (f : HE V → HE V) :
    placeholderCount (v.update k f).live + (if he.val.isPlaceholder then 1 else 0) =
      placeholderCount v.live + if (f he).val.isPlaceholder then 1 else 0 := by
  obtain ⟨hm, hid⟩ := mem_of_find hf
  obtain ⟨l₁, l₂, hl, -, hu⟩ := KeyedList.split h.distinct hm hid
  unfold placeholderCount View.update
  rw [hu, hl]
  simp only [List.countP_append, List.countP_cons]
  omega

theorem count_erase (h : v.Ok) (hf : v.find k = some he) :
    placeholderCount (KeyedList.erase HE.id v.live (some k)) +
      (if he.val.isPlaceholder then 1 else 0) = placeholderCount v.live := by
  obtain ⟨hm, hid⟩ := mem_of_find hf
  obtain ⟨l₁, l₂, hl, hu, -⟩ := KeyedList.split h.distinct hm hid
  unfold placeholderCount
  rw [hu, hl]
  simp only [List.countP_append, List.countP_cons]
  omega

theorem Exact.setVal (hx : v.Exact) (h : v.Ok) (hf : v.find k = some he) (val : HeVal V) {n : Int}
    (hn : n = (if val.isPlaceholder then 1 else 0) - if he.val.isPlaceholder then 1 else 0) :
    (v.setVal k val).placeholders.getD 0 + n = placeholderCount (v.setVal k val).live := by
  have hcount := count_update h hf fun he => { he with val := val }
  have hcount' : placeholderCount (v.setVal k val).live + (if he.val.isPlaceholder then 1 else 0) =
      placeholderCount v.live + if val.isPlaceholder then 1 else 0 := hcount
  have hp : (v.setVal k val).placeholders.getD 0 = placeholderCount v.live := hx
  rw [hp, hn]
  split_ifs at hcount' ⊢ <;> omega

theorem Exact.hides (hx : v.Exact) (h : v.Ok) (hs : v.Hides v') : v'.Exact := by
  obtain ⟨k, he, hf, hord, rfl⟩ := hs
  exact hx.setVal h hf _ (by simp [hord])

theorem Sweeps.count (h : v.Ok) (hs : v.Sweeps v') :
    placeholderCount v'.live + 1 = placeholderCount v.live := by
  obtain ⟨k, hek, indexed, flags, hf, rfl⟩ := hs
  exact count_erase h hf

theorem Exact.sweeps (hx : v.Exact) (h : v.Ok) (hs : v.Sweeps v') : v'.Exact := by
  have hcount := hs.count h
  have hp : v.placeholders.getD 0 = placeholderCount v.live := hx
  have hp' : v'.placeholders.getD 0 = v.placeholders.getD 0 + -1 := by
    obtain ⟨k, hek, indexed, flags, hf, rfl⟩ := hs
    rfl
  unfold Exact
  omega

theorem Hides.ok (h : v.Ok) (hs : v.Hides v') : v'.Ok := by
  obtain ⟨k, he, hf, -, rfl⟩ := hs
  obtain ⟨hm, hid⟩ := mem_of_find hf
  have hok := h.update (f := fun he => { he with val := .placeholder }) hm hid hid rfl
  exact ⟨hok.heks, hok.keys, hok.distinct, hok.pending, hok.refs⟩

theorem Hides.exact (hx : v.Exact) (h : v.Ok) (hs : Relation.ReflTransGen Hides v v') :
    v'.Exact ∧ v'.Ok := by
  induction hs with
  | refl => exact ⟨hx, h⟩
  | tail _ hstep ih => exact ⟨ih.1.hides ih.2 hstep, hstep.ok ih.2⟩

theorem not_placeholder_of_count (h : placeholderCount v.live = 0) (hm : he ∈ v.live) :
    he.val.isPlaceholder = false := by
  simpa using List.countP_eq_zero.mp h he hm

theorem placeholderCount_eq_zero (h : ∀ he ∈ v.live, he.val.isPlaceholder = false) :
    placeholderCount v.live = 0 :=
  List.countP_eq_zero.mpr fun he hm => by simp [h he hm]

theorem placeholderCount_le (v : View V) (h : v.Ok) : placeholderCount v.live ≤ v.keys := by
  rw [h.keys]
  exact List.countP_le_length

end View

end XPerl.Hash
