import Mathlib.Data.List.ReduceOption
import Mathlib.Tactic.IntervalCases
import Mathlib.Tactic.Positivity
import Mathlib.Tactic.Ring
import XPerl.Framework.Exec

/-! Data of an ordinary hash, and the capacity policy of its entry array and of its index. -/

namespace XPerl.Hash

open XPerl.Framework.Exec

abbrev Octets := List UInt8

/-- Encodings of the entry index chosen when perl is built. -/
inductive Build where
  | chains
  | oa
  deriving DecidableEq, Repr

/-- Build and interpreter settings that the hash code reads. -/
structure Config where
  build : Build
  /-- PL_hash_linear_max, bounded where it is set -/
  linearMax : Nat
  linearMax_le : linearMax ≤ 8
  /-- PERL_HASH -/
  perlHash : Octets → UInt32

/-- Errors thrown by the hash functions. `undefined` stands for a loop that never
ends, or storage read in the wrong form. -/
inductive PerlError where
  | hashCapacityExceeded
  | memoryWrap
  | keyLengthOutOfRange
  | keyAccessDisallowed (key : Octets) (utf8 : Bool)
  | keyDeletionDisallowed (key : Octets) (utf8 : Bool)
  | readOnlyKeyDeletion (key : Octets) (utf8 : Bool)
  | undefined
  deriving DecidableEq, Repr

/-- A hash key with its storage flags. `ref` names the reference that the owner holds,
so that releases can be counted. -/
structure HEK where
  hash : UInt32
  key : Octets
  utf8 : Bool
  wasUtf8 : Bool
  notShared : Bool
  ref : Nat
  deriving DecidableEq, Repr

/-- Value slot of an entry: NULL, `&PL_sv_placeholder` or an ordinary value. -/
inductive HeVal (V : Type) where
  | null
  | placeholder
  | sv (v : V)
  deriving DecidableEq, Repr

def HeVal.isPlaceholder {V : Type} : HeVal V → Bool
  | placeholder => true
  | _ => false

@[simp] theorem isPlaceholder_placeholder {V : Type} :
    (HeVal.placeholder : HeVal V).isPlaceholder = true := rfl

theorem isPlaceholder_iff {V : Type} {val : HeVal V} :
    val.isPlaceholder = true ↔ val = .placeholder := by
  cases val <;> simp [HeVal.isPlaceholder]

def HeVal.toSv {V : Type} : HeVal V → Option V
  | sv v => some v
  | _ => none

def HeVal.svReadonly {V : Type} (svReadonly : V → Bool) (val : HeVal V) : Bool :=
  val.toSv.any svReadonly

/-- An entry. A vacant position of the entry array has no key. -/
structure HE (V : Type) where
  hek : Option HEK
  val : HeVal V
  deriving DecidableEq, Repr

def HE.vacant {V : Type} : HE V := ⟨none, .null⟩

/-- Entry pointer of the iterator: into the entry array, or to an arena copy of a
deleted entry. -/
inductive EIter (V : Type) where
  | slot (i : Nat)
  | retired (he : HE V)
  deriving DecidableEq, Repr

/-- Iterator fields of the auxiliary structure. -/
structure Aux (V : Type) where
  riter : Int
  eiter : Option (EIter V)
  iterInserted : Bool
  iterActive : Bool
  deriving DecidableEq, Repr

/-- Index header with its entries. `entries` lists the used positions, and `indices`
the raw cells of the index region. -/
structure OA (V : Type) where
  entries : List (HE V)
  buckets : Nat
  capacity : Nat
  tombstones : Nat
  indices : List Nat
  deriving DecidableEq, Repr

def OA.used {V : Type} (oa : OA V) : Nat := oa.entries.length

/-- HvARRAY and HvMAX. A linear vector lists its entries; its capacity is zero exactly when HvARRAY
is NULL. -/
inductive Storage (V : Type) where
  | unallocated (buckets : Nat)
  | linear (cap : Nat) (entries : List (HE V))
  | indexed (oa : OA V)
  deriving DecidableEq, Repr

def Storage.withEntries {V : Type} (st : Storage V) (es : List (HE V)) : Storage V :=
  match st with
  | .unallocated n => .unallocated n
  | .linear cap _ => .linear cap es
  | .indexed oa => .indexed { oa with entries := es }

/-- An ordinary hash. `freed` lists the key references released so far, and `nextRef`
names the next one to be taken. -/
structure HV (V : Type) where
  storage : Storage V
  /-- HvTOTALKEYS -/
  keys : Nat
  /-- count kept in the rhash magic, if the magic exists -/
  placeholders : Option Int
  readonly : Bool
  lazydel : Bool
  hasKFlags : Bool
  shareKeys : Bool
  aux : Option (Aux V)
  freed : List Nat
  nextRef : Nat
  deriving DecidableEq, Repr

abbrev HvM (V : Type) := EStateM PerlError (HV V)

abbrev OaM (V : Type) := EStateM PerlError (OA V)

/-- A hash just created, with the default bucket count. -/
def newHV {V : Type} (shareKeys : Bool) : HV V where
  storage := .unallocated 8
  keys := 0
  placeholders := none
  readonly := false
  lazydel := false
  hasKFlags := false
  shareKeys := shareKeys
  aux := none
  freed := []
  nextRef := 0

namespace HV

variable {V : Type} (hv : HV V)

def entries : List (HE V) :=
  match hv.storage with
  | .unallocated _ => []
  | .linear _ es => es
  | .indexed oa => oa.entries

def hvEntryLimit : Nat := hv.entries.length

def eiter : Option (EIter V) := hv.aux.bind Aux.eiter

def riter : Int := hv.aux.elim (-1) Aux.riter

/-- Whether the iterator's entry pointer is position `i`. -/
def isCurrent (i : Nat) : Bool :=
  match hv.eiter with
  | some (.slot j) => j == i
  | _ => false

def hvEntryFirst (i : Nat) : Option (HE V) :=
  match hv.storage with
  | .unallocated _ => none
  | .linear _ es => es[i]?
  | .indexed oa =>
    oa.entries[i]?.filter fun he => he.hek.isSome && !(hv.lazydel && hv.isCurrent i)

def slots : List (Option (HE V)) := (List.range hv.hvEntryLimit).map hv.hvEntryFirst

/-- The live entries in storage order. -/
def live : List (HE V) := hv.slots.reduceOption

def unvisited : List (HE V) := (hv.slots.drop (hv.riter + 1).toNat).reduceOption

def current : Option (HE V) :=
  match hv.eiter with
  | none => none
  | some (.slot i) => hv.entries[i]?
  | some (.retired he) => some he

def svMagical : Bool := hv.placeholders.isSome

def hvPlaceholdersGet : Int := hv.placeholders.getD 0

def hvUsedKeys : Int := hv.keys - hv.hvPlaceholdersGet

/-- HvPLACEHOLDERS, which creates the magic, adjusted by `n`. -/
def addPlaceholders (n : Int) : HV V := { hv with placeholders := some (hv.hvPlaceholdersGet + n) }

def hvPlaceholdersSet (n : Int) : HV V :=
  match hv.placeholders with
  | some _ => { hv with placeholders := some n }
  | none => if n = 0 then hv else { hv with placeholders := some n }

def withEntries (es : List (HE V)) : HV V := { hv with storage := hv.storage.withEntries es }

def modifyEntry (i : Nat) (f : HE V → HE V) : HV V := hv.withEntries (hv.entries.modify i f)

def modifyAux (f : Aux V → Aux V) : HV V := { hv with aux := hv.aux.map f }

/-- Release one key reference: unshare_hek or Safefree. -/
def freeKey (hek : HEK) : HV V := { hv with freed := hv.freed ++ [hek.ref] }

end HV

def onOA {V α : Type} (m : OaM V α) : HvM V α := fun hv =>
  match hv.storage with
  | .indexed oa =>
    match m.run oa with
    | .ok a oa' => .ok a { hv with storage := .indexed oa' }
    | .error e oa' => .error e { hv with storage := .indexed oa' }
  | _ => .error .undefined hv

theorem wp_onOA {V α : Type} {m : OaM V α} {hv : HV V} {oa : OA V}
    {Q : α → HV V → Prop} {E : PerlError → HV V → Prop} (h : hv.storage = .indexed oa) :
    wp (onOA m) hv Q E ↔ wp m oa (fun a oa' => Q a { hv with storage := .indexed oa' })
      (fun e oa' => E e { hv with storage := .indexed oa' }) := by
  simp only [wp, onOA, EStateM.run, h]
  cases m oa <;> rfl

def hvMaxBuckets : Nat := 2 ^ 30

def oaEntryCapacity (capacity : Nat) : Nat := capacity / 3 * 2 + capacity % 3 * 2 / 3

def hvMaxKeys : Nat := oaEntryCapacity hvMaxBuckets

def oaCoupledMax : Nat := 16384

def i32Max : Nat := 2 ^ 31 - 1

def u32Max : Nat := 2 ^ 32 - 1

def memSizeMax : Nat := 2 ^ 64 - 1

/-- Bytes of `struct hv_oa` before the index cells. -/
def oaHeaderBytes : Nat := 20

def heBytes : Nat := 16

/-- HvOA_INDEX_WIDTH_FOR: bytes of one index cell. -/
def indexWidthFor (build : Build) (capacity : Nat) : Nat :=
  match build with
  | .chains => if capacity ≤ 255 then 1 else if capacity ≤ 65535 then 2 else 4
  | .oa => if capacity ≤ 128 then 1 else if capacity ≤ 32768 then 2 else 4

/-- The capacity that sets the cell width: entry identifiers count entries, and slots
count with their reserved code. -/
def widthKey (build : Build) (buckets entries : Nat) : Nat :=
  match build with
  | .chains => entries
  | .oa => buckets

def indexCells (build : Build) (buckets entries : Nat) : Nat :=
  match build with
  | .chains => buckets + entries
  | .oa => buckets

def rebuildKeyLimit (build : Build) (capacity : Nat) : Nat :=
  match build with
  | .chains => capacity
  | .oa => oaEntryCapacity capacity

def oaCompactionWorthwhile (used live capacity : Nat) : Bool :=
  decide (used - live ≥ capacity / 5 + (if capacity % 5 ≠ 0 then 1 else 0))

def doubleTo (target : Nat) : Nat → Nat → Nat
  | 0, capacity => capacity
  | fuel + 1, capacity =>
    if capacity < target ∧ capacity < hvMaxBuckets then doubleTo target fuel (capacity * 2)
    else capacity

def hvOaCapacityFor (live minimum : Nat) : Nat :=
  if live > hvMaxKeys ∨ minimum = 0 ∨ minimum > hvMaxBuckets ∨ minimum &&& (minimum - 1) ≠ 0 then 0
  else doubleTo (live * 3) 31 (max minimum 8)

def oaRebuildCapacity {V : Type} (live minimum : Nat) : HvM V Nat := do
  let capacity := hvOaCapacityFor live minimum
  throwIf (capacity = 0) .hashCapacityExceeded
  pure capacity

def hvOaSizeValid (build : Build) (buckets entries : Nat) : Bool :=
  let available := memSizeMax - oaHeaderBytes
  let width := indexWidthFor build (widthKey build buckets entries)
  decide (buckets ≠ 0 ∧ buckets ≤ hvMaxBuckets ∧ buckets &&& (buckets - 1) = 0 ∧
    entries ≤ i32Max ∧ (entries ≠ 0 → heBytes ≤ memSizeMax / entries) ∧
    buckets ≤ available / width ∧
    (build = .chains →
      entries ≤ u32Max - buckets ∧ entries ≤ (available - buckets * width) / width))

def growEntryCapacity (live : Nat) : Nat → Nat → Option Nat
  | 0, capacity => if capacity < live then none else some capacity
  | fuel + 1, capacity =>
    if capacity < live then growEntryCapacity live fuel (capacity + capacity / 4)
    else some capacity

def promoteCapacity (used : Nat) : Nat → Nat → Option Nat
  | 0, _ => none
  | fuel + 1, cap =>
    if used + used / 2 > cap - 1 then
      if cap ≥ hvMaxBuckets then none else promoteCapacity used fuel (cap * 2)
    else some cap

def bucketOf (hash : UInt32) (buckets : Nat) : Nat := hash.toNat &&& (buckets - 1)

def IsBucketCount (n : Nat) : Prop := ∃ k, 3 ≤ k ∧ k ≤ 30 ∧ n = 2 ^ k

theorem oaEntryCapacity_lt {n : Nat} (h : 0 < n) : oaEntryCapacity n < n := by
  unfold oaEntryCapacity
  omega

theorem oaEntryCapacity_mono {m n : Nat} (h : m ≤ n) : oaEntryCapacity m ≤ oaEntryCapacity n := by
  unfold oaEntryCapacity
  omega

theorem hvMaxKeys_eq : hvMaxKeys = 715827882 := by decide

namespace IsBucketCount

variable {n : Nat} (h : IsBucketCount n)
include h

theorem ge : 8 ≤ n := by
  obtain ⟨k, hk, -, rfl⟩ := h
  calc 8 = 2 ^ 3 := rfl
    _ ≤ 2 ^ k := Nat.pow_le_pow_right (by omega) hk

theorem le : n ≤ hvMaxBuckets := by
  obtain ⟨k, -, hk, rfl⟩ := h
  exact Nat.pow_le_pow_right (by omega) hk

theorem and_eq : n &&& (n - 1) = 0 := by
  obtain ⟨k, -, -, rfl⟩ := h
  rw [Nat.and_two_pow_sub_one_eq_mod, Nat.mod_self]

theorem double (hn : n < hvMaxBuckets) : IsBucketCount (n * 2) := by
  obtain ⟨k, hk, hk', rfl⟩ := h
  have hlt : k < 30 := (Nat.pow_lt_pow_iff_right (by omega)).mp hn
  exact ⟨k + 1, by omega, by omega, (Nat.pow_succ ..).symm⟩

theorem entryCapacity_le : oaEntryCapacity n ≤ hvMaxKeys := oaEntryCapacity_mono h.le

end IsBucketCount

theorem isBucketCount_eight : IsBucketCount 8 := ⟨3, by omega, by omega, rfl⟩

theorem bucketOf_lt {n : Nat} (h : IsBucketCount n) (hash : UInt32) : bucketOf hash n < n := by
  obtain ⟨k, -, -, rfl⟩ := h
  rw [bucketOf, Nat.and_two_pow_sub_one_eq_mod]
  exact Nat.mod_lt _ (by positivity)

theorem doubleTo_spec {target : Nat} : ∀ {fuel capacity : Nat}, IsBucketCount capacity →
    hvMaxBuckets ≤ capacity * 2 ^ fuel →
    IsBucketCount (doubleTo target fuel capacity) ∧ capacity ≤ doubleTo target fuel capacity ∧
      (target ≤ doubleTo target fuel capacity ∨ doubleTo target fuel capacity = hvMaxBuckets) := by
  intro fuel
  induction fuel with
  | zero =>
    intro capacity h hmax
    have := h.le
    exact ⟨h, le_refl _, Or.inr (by simp only [doubleTo]; omega)⟩
  | succ fuel ih =>
    intro capacity h hmax
    unfold doubleTo
    split
    · rename_i hc
      have hmax' : hvMaxBuckets ≤ capacity * 2 * 2 ^ fuel := by
        rw [Nat.pow_succ] at hmax
        calc _ ≤ capacity * (2 ^ fuel * 2) := hmax
          _ = capacity * 2 * 2 ^ fuel := by ring
      obtain ⟨h1, h2, h3⟩ := ih (h.double hc.2) hmax'
      exact ⟨h1, by omega, h3⟩
    · have := h.le
      exact ⟨h, le_refl _, by omega⟩

variable {live minimum buckets entries : Nat} {build : Build}

theorem hvOaCapacityFor_spec (hl : live ≤ hvMaxKeys)
    (hm : IsBucketCount minimum) :
    IsBucketCount (hvOaCapacityFor live minimum) ∧ minimum ≤ hvOaCapacityFor live minimum ∧
      (live * 3 ≤ hvOaCapacityFor live minimum ∨
        hvOaCapacityFor live minimum = hvMaxBuckets) := by
  have h8 := hm.ge
  have hle := hm.le
  have hmax : max minimum 8 = minimum := by omega
  have hdef : hvOaCapacityFor live minimum = doubleTo (live * 3) 31 minimum := by
    unfold hvOaCapacityFor
    rw [if_neg (by simp only [hm.and_eq]; omega), hmax]
  rw [hdef]
  refine doubleTo_spec hm ?_
  calc hvMaxBuckets ≤ 8 * 2 ^ 31 := by decide
    _ ≤ minimum * 2 ^ 31 := Nat.mul_le_mul_right _ h8

theorem oaRebuildCapacity_spec {V : Type} {hv : HV V}
    (hl : live ≤ hvMaxKeys) (hm : IsBucketCount minimum) :
    returns (oaRebuildCapacity live minimum) hv fun c hv' =>
      hv = hv' ∧ IsBucketCount c ∧ minimum ≤ c ∧ (live < oaEntryCapacity c ∨ c = hvMaxBuckets) := by
  obtain ⟨hc, hmin, hroom⟩ := hvOaCapacityFor_spec hl hm
  have := hc.ge
  simp only [oaRebuildCapacity, returns, wp_bind, wp_throwIf, wp_pure]
  refine ⟨by omega, fun _ => ⟨trivial, hc, hmin, ?_⟩⟩
  refine hroom.imp_left fun h => ?_
  unfold oaEntryCapacity
  omega

theorem hvOaSizeValid_of (hb : IsBucketCount buckets)
    (he : entries ≤ i32Max) : hvOaSizeValid build buckets entries = true := by
  have hle := hb.le
  have h8 := hb.ge
  have hmax : hvMaxBuckets = 1073741824 := by decide
  have hi : i32Max = 2147483647 := by decide
  have hm : memSizeMax = 18446744073709551615 := by decide
  have hu : u32Max = 4294967295 := by decide
  have hw : ∀ c, 1 ≤ indexWidthFor build c ∧ indexWidthFor build c ≤ 4 := by
    intro c
    unfold indexWidthFor
    cases build <;> dsimp only <;> split_ifs <;> omega
  have hdiv : ∀ x a w : Nat, 1 ≤ w → w ≤ 4 → x * 4 ≤ a → x ≤ a / w := fun x a w h1 h4 h =>
    (Nat.le_div_iff_mul_le h1).mpr ((Nat.mul_le_mul_left _ h4).trans h)
  have hhe : entries ≠ 0 → heBytes ≤ memSizeMax / entries := by
    intro h0
    refine (Nat.le_div_iff_mul_le (by omega)).mpr ?_
    simp only [heBytes]
    omega
  have hmul : ∀ w, w ≤ 4 → buckets * w ≤ buckets * 4 := fun w h => Nat.mul_le_mul_left _ h
  have hmul' := hmul _ (hw (widthKey build buckets entries)).2
  refine decide_eq_true ⟨by omega, hle, hb.and_eq, he, hhe, ?_, fun _ => ⟨by omega, ?_⟩⟩
  · exact hdiv _ _ _ (hw _).1 (hw _).2 (by simp only [oaHeaderBytes]; omega)
  · exact hdiv _ _ _ (hw _).1 (hw _).2 (by simp only [oaHeaderBytes]; omega)

theorem le_of_hvOaSizeValid
    (h : hvOaSizeValid build buckets entries = true) : entries ≤ i32Max := by
  have h' := of_decide_eq_true h
  exact h'.2.2.2.1

theorem growEntryCapacity_spec : ∀ (fuel : Nat) {capacity : Nat}, 4 ≤ capacity →
    live ≤ capacity + fuel →
    ∃ c, growEntryCapacity live fuel capacity = some c ∧ live ≤ c ∧ capacity ≤ c ∧
      (c = capacity ∨ c < live + live / 4 + 1) := by
  intro fuel
  induction fuel with
  | zero =>
    intro capacity _ hl
    refine ⟨capacity, ?_, by omega, le_refl _, Or.inl rfl⟩
    rw [growEntryCapacity, if_neg (by omega)]
  | succ fuel ih =>
    intro capacity h4 hl
    unfold growEntryCapacity
    split
    · rename_i hc
      obtain ⟨c, hg, hlc, hcc, hb⟩ := @ih (capacity + capacity / 4) (by omega) (by omega)
      refine ⟨c, hg, hlc, by omega, Or.inr ?_⟩
      rcases hb with rfl | hb <;> omega
    · exact ⟨capacity, rfl, by omega, le_refl _, Or.inl rfl⟩

theorem promoteCapacity_spec {used : Nat} (hu : used ≤ 8) :
    ∃ c, promoteCapacity used 31 8 = some c ∧ IsBucketCount c ∧ used ≤ oaEntryCapacity c := by
  by_cases h : used ≤ 5
  · refine ⟨8, ?_, isBucketCount_eight, h⟩
    rw [promoteCapacity, if_neg (by omega)]
  · refine ⟨16, ?_, isBucketCount_eight.double (by decide), hu.trans (by decide)⟩
    have hmax : ¬8 ≥ hvMaxBuckets := by decide
    rw [promoteCapacity, if_pos (by omega), if_neg hmax, promoteCapacity, if_neg (by omega)]

end XPerl.Hash
