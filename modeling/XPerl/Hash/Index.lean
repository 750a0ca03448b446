import XPerl.Framework.BucketChains
import XPerl.Framework.ProbeTable
import XPerl.Hash.State

/-! The entry index in its two encodings: identifier chains and open addressing. -/

namespace XPerl.Hash

open XPerl.Framework XPerl.Framework.Exec ProbeTable BucketChains

variable {V : Type}

def oaDeleted : Nat := u32Max

/-- What a key lookup compares. -/
structure KeyId where
  hash : UInt32
  key : Octets
  utf8 : Bool
  deriving DecidableEq, Repr

def HEK.id (hek : HEK) : KeyId := ⟨hek.hash, hek.key, hek.utf8⟩

/-- S_oa_key_eq. A key is equal to itself by content too, so the pointer shortcut
needs no branch of its own. -/
def oaKeyEq (hek : HEK) (k : KeyId) : Bool :=
  decide (hek.hash = k.hash) && decide (hek.key = k.key) && decide (hek.utf8 = k.utf8)

/-- Whether the entry at position `i` holds the key. -/
def entryHasKey (es : List (HE V)) (k : KeyId) (i : Nat) : Bool :=
  (es[i]?.bind HE.hek).any (oaKeyEq · k)

def allOnes (width : Nat) : Nat := 256 ^ width - 1

def readCell (build : Build) (width raw : Nat) : Nat :=
  match build with
  | .chains => raw
  | .oa => if raw = allOnes width then oaDeleted else raw

def writeCell (build : Build) (width value : Nat) : Nat :=
  match build with
  | .chains => value % 256 ^ width
  | .oa => if value = oaDeleted then allOnes width else value % 256 ^ width

namespace OA

variable (oa : OA V)

def width (build : Build) : Nat := indexWidthFor build (widthKey build oa.buckets oa.capacity)

def indexGet (build : Build) (pos : Nat) : Nat :=
  readCell build (oa.width build) (oa.indices.getD pos 0)

def indexSet (build : Build) (pos value : Nat) : OA V :=
  { oa with indices := oa.indices.set pos (writeCell build (oa.width build) value) }

end OA

def decodeCell (value : Nat) : ProbeTable.Cell Nat :=
  if value = 0 then .empty else if value = oaDeleted then .deleted else .full (value - 1)

def oaCells (oa : OA V) : List (ProbeTable.Cell Nat) :=
  oa.indices.map fun raw => decodeCell (readCell .oa (oa.width .oa) raw)

/-- Entry position found, and index position for `*slotp`. `none` is OA_EMPTY. -/
structure FindResult where
  entry : Option Nat
  slot : Option Nat
  deriving DecidableEq, Repr

/-- Index lookup of S_oa_find. The outer `none` means that the chain never ends. -/
def oaFindIndexed (build : Build) (oa : OA V) (k : KeyId) : Option FindResult :=
  let start := bucketOf k.hash oa.buckets
  let test := entryHasKey oa.entries k
  match build with
  | .chains =>
    match BucketChains.walk (oa.indexGet .chains) oa.buckets test (oa.capacity + 1) start with
    | none => none
    | some none => some ⟨none, none⟩
    | some (some (i, pos)) => some ⟨some i, some pos⟩
  | .oa =>
    let (entry, slot) := ProbeTable.find (oaCells oa) test start
    some ⟨entry, slot⟩

def oaFind (build : Build) (hv : HV V) (k : KeyId) : Option FindResult :=
  match hv.storage with
  | .unallocated _ => some ⟨none, none⟩
  | .linear _ es => some ⟨(List.range es.length).find? (entryHasKey es k), none⟩
  | .indexed oa => oaFindIndexed build oa k

def oaTakeSlot (pos : Nat) : OaM V Unit :=
  modify fun oa =>
    if oa.indexGet .oa pos = oaDeleted then { oa with tombstones := oa.tombstones - 1 } else oa

def oaPutSlot (pos i : Nat) : OaM V Unit := do
  oaTakeSlot pos
  modify fun oa => oa.indexSet .oa pos (i + 1)

def oaIndexInsert (build : Build) (i : Nat) (hash : UInt32) : OaM V Unit := do
  let oa ← get
  let start := bucketOf hash oa.buckets
  match build with
  | .chains =>
    modify fun oa => oa.indexSet .chains (oa.buckets + i) (oa.indexGet .chains start)
    modify fun oa => oa.indexSet .chains start (i + 1)
  | .oa =>
    match ProbeTable.freeSlot (oaCells oa) start with
    | none => throw .memoryWrap
    | some pos =>
      oaTakeSlot pos
      throwIf (i + 1 ≥ allOnes (oa.width .oa)) .memoryWrap
      modify fun oa => oa.indexSet .oa pos (i + 1)

def oaIndexDelete (build : Build) (pos : Nat) : OaM V Unit := do
  match build with
  | .chains =>
    let oa ← get
    let encoded := oa.indexGet .chains pos
    let next := oa.indexGet .chains (oa.buckets + (encoded - 1))
    modify fun oa => oa.indexSet .chains pos next
    modify fun oa => oa.indexSet .chains (oa.buckets + (encoded - 1)) 0
  | .oa =>
    modify fun oa => oa.indexSet .oa pos oaDeleted
    modify fun oa => { oa with tombstones := oa.tombstones + 1 }

def grownIndices (build : Build) (oa : OA V) (capacity : Nat) : List Nat :=
  match build with
  | .chains =>
    if indexWidthFor .chains capacity = oa.width .chains then
      oa.indices ++ List.replicate (capacity - oa.capacity) 0
    else
      (oa.indices.map (writeCell .chains (indexWidthFor .chains capacity))) ++
        List.replicate (capacity - oa.capacity) 0
  | .oa => oa.indices

/-- S_oa_reserve_entries. The iterator's position is an offset, so moving the array
leaves it alone. -/
def oaReserveEntries (build : Build) (capacity : Nat) : OaM V Unit := do
  let oa ← get
  if capacity ≤ oa.capacity then pure ()
  else
    throwIf (hvOaSizeValid build oa.buckets capacity = false) .memoryWrap
    set ({ oa with capacity := capacity, indices := grownIndices build oa capacity } : OA V)

/-! Invariant of the index, relative to the home bucket of each live entry. -/

structure ChainsOk (oa : OA V) (home : Nat → Option Nat) : Prop where
  length : oa.indices.length = oa.buckets + oa.capacity
  chains : BucketChains.Indexes (oa.indexGet .chains) oa.buckets home
  bound : ∀ v ∈ oa.indices, v ≤ oa.capacity

structure SlotsOk (oa : OA V) (home : Nat → Option Nat) : Prop where
  length : oa.indices.length = oa.buckets
  index : ProbeTable.Index (oaCells oa) home
  tombstones : ProbeTable.deletedCount (oaCells oa) = oa.tombstones

def IndexOk (build : Build) (oa : OA V) (home : Nat → Option Nat) : Prop :=
  match build with
  | .chains => ChainsOk oa home
  | .oa => SlotsOk oa home

def Refers (build : Build) (oa : OA V) (home : Nat → Option Nat) (pos i : Nat) : Prop :=
  match build with
  | .chains => ∃ b l₁ l₂, home i = some b ∧ b < oa.buckets ∧
      BucketChains.Chain (oa.indexGet .chains) oa.buckets (oa.indexGet .chains b) (l₁ ++ i :: l₂) ∧
      pos = BucketChains.link oa.buckets b l₁
  | .oa => (oaCells oa)[pos]? = some (.full i)

/-- Sizes that keep every stored identifier within its cell. -/
structure Sized (build : Build) (oa : OA V) : Prop where
  buckets : IsBucketCount oa.buckets
  four_le : 4 ≤ oa.capacity
  le_max : oa.capacity ≤ i32Max
  used_le : oa.used ≤ oa.capacity
  position : build = .oa → oa.used + 2 ≤ 256 ^ oa.width .oa

/-- Homes belong to used positions and are buckets. -/
structure HomesIn (oa : OA V) (home : Nat → Option Nat) : Prop where
  used : ∀ i, home i ≠ none → i < oa.used
  bucket : ∀ i b, home i = some b → b < oa.buckets

/-- What index maintenance leaves alone. -/
structure SameShape (oa oa' : OA V) : Prop where
  entries : oa'.entries = oa.entries
  buckets : oa'.buckets = oa.buckets
  capacity : oa'.capacity = oa.capacity

variable {build : Build} {oa : OA V} {home : Nat → Option Nat}

theorem Sized.of_shape {oa' : OA V} (hs : Sized build oa) (h : SameShape oa oa') :
    Sized build oa' := by
  have hw : oa'.width .oa = oa.width .oa := by
    unfold OA.width
    rw [h.buckets, h.capacity]
  obtain ⟨h1, h2, h3, h4, h5⟩ := hs
  unfold OA.used at h4 h5
  refine ⟨?_, ?_, ?_, ?_, ?_⟩ <;> simpa only [OA.used, h.buckets, h.capacity, h.entries, hw]

theorem IndexOk.withEntries (h : IndexOk build oa home) (es : List (HE V)) :
    IndexOk build { oa with entries := es } home := by
  cases build with
  | chains => exact ⟨h.length, h.chains, h.bound⟩
  | oa => exact ⟨h.length, h.index, h.tombstones⟩

theorem width_bounds (build : Build) (oa : OA V) : 1 ≤ oa.width build ∧ oa.width build ≤ 4 := by
  unfold OA.width indexWidthFor
  cases build <;> dsimp only <;> split_ifs <;> omega

variable {v pos i : Nat}

variable {capacity w b : Nat} {hash : UInt32} {k : KeyId}

theorem chains_fits (hc : capacity ≤ i32Max) (hv : v ≤ capacity) :
    v < 256 ^ indexWidthFor .chains capacity := by
  have hi : i32Max = 2147483647 := by decide
  simp only [indexWidthFor]
  split_ifs <;> omega

theorem writeCell_chains (hs : Sized .chains oa) (hv : v ≤ oa.capacity) :
    writeCell .chains (oa.width .chains) v = v :=
  Nat.mod_eq_of_lt (chains_fits hs.le_max hv)

theorem indexGet_chains (oa : OA V) (pos : Nat) :
    oa.indexGet .chains pos = oa.indices.getD pos 0 := rfl

theorem indexGet_indexSet (hs : Sized .chains oa) (hp : pos < oa.indices.length)
    (hv : v ≤ oa.capacity) :
    (oa.indexSet .chains pos v).indexGet .chains =
      Function.update (oa.indexGet .chains) pos v := by
  funext q
  rw [indexGet_chains, OA.indexSet, writeCell_chains hs hv, List.getD_eq_getElem?_getD,
    List.getElem?_set]
  by_cases h : pos = q
  · subst h
    simp [hp]
  · rw [if_neg h, Function.update_of_ne (Ne.symm h), indexGet_chains, List.getD_eq_getElem?_getD]

theorem bound_indexSet (hs : Sized .chains oa) (hv : v ≤ oa.capacity)
    (hb : ∀ u ∈ oa.indices, u ≤ oa.capacity) :
    ∀ u ∈ (oa.indexSet .chains pos v).indices, u ≤ oa.capacity := by
  intro u hu
  rw [OA.indexSet, writeCell_chains hs hv] at hu
  rcases List.mem_or_eq_of_mem_set hu with h | h
  · exact hb u h
  · omega

theorem indexGet_le (h : ∀ u ∈ oa.indices, u ≤ oa.capacity) (pos : Nat) :
    oa.indexGet .chains pos ≤ oa.capacity := by
  rw [indexGet_chains, List.getD_eq_getElem?_getD]
  cases hq : oa.indices[pos]? with
  | none => simp
  | some u => exact h u (List.mem_of_getElem? hq)

theorem decode_write (hw : 1 ≤ w ∧ w ≤ 4) (hv : v < allOnes w ∨ v = oaDeleted) :
    decodeCell (readCell .oa w (writeCell .oa w v)) = decodeCell v := by
  have hd : oaDeleted = 4294967295 := by decide
  have hones : allOnes w ≤ 4294967295 := by
    unfold allOnes
    have : 256 ^ w ≤ 256 ^ 4 := Nat.pow_le_pow_right (by omega) hw.2
    omega
  by_cases h : v = oaDeleted
  · simp [readCell, writeCell, h]
  · have hlt : v < allOnes w := hv.resolve_right h
    have hmod : v % 256 ^ w = v := Nat.mod_eq_of_lt (by unfold allOnes at hlt; omega)
    simp [readCell, writeCell, h, hmod, hlt.ne]

theorem oaCells_length (oa : OA V) : (oaCells oa).length = oa.indices.length := by
  simp [oaCells]

theorem oaCells_indexSet (hv : v < allOnes (oa.width .oa) ∨ v = oaDeleted) :
    oaCells (oa.indexSet .oa pos v) = (oaCells oa).set pos (decodeCell v) := by
  simp only [oaCells, OA.indexSet, List.map_set]
  rw [← decode_write (width_bounds .oa oa) hv]
  rfl

theorem decode_indexGet {c : ProbeTable.Cell Nat} (h : (oaCells oa)[pos]? = some c) :
    decodeCell (oa.indexGet .oa pos) = c := by
  simp only [oaCells, List.getElem?_map, Option.map_eq_some_iff] at h
  obtain ⟨raw, hraw, rfl⟩ := h
  simp [OA.indexGet, List.getD_eq_getElem?_getD, hraw]

theorem decodeCell_isDeleted (v : Nat) : (decodeCell v).isDeleted = true ↔ v = oaDeleted := by
  have hd : oaDeleted ≠ 0 := by decide
  unfold decodeCell
  split_ifs with h0 h1
  · subst h0
    simpa [ProbeTable.Cell.isDeleted] using hd.symm
  · simp [ProbeTable.Cell.isDeleted, h1]
  · simp [ProbeTable.Cell.isDeleted, h1]

theorem decodeCell_full (hw : 1 ≤ w ∧ w ≤ 4) (hi : i + 1 < allOnes w) :
    decodeCell (i + 1) = .full i := by
  have hd : oaDeleted = 4294967295 := by decide
  have hones : allOnes w ≤ 4294967295 := by
    unfold allOnes
    have : 256 ^ w ≤ 256 ^ 4 := Nat.pow_le_pow_right (by omega) hw.2
    omega
  unfold decodeCell
  rw [if_neg (by omega), if_neg (by omega)]
  rfl

theorem slotsOk_put (hs : Sized .oa oa) (hx : SlotsOk oa home)
    (hb : b < oa.buckets) (hi : i < oa.used) (hhi : home i = none)
    (hpos : freeSlot (oaCells oa) b = some pos) :
    returns (oaPutSlot pos i) oa fun _ oa' =>
      SlotsOk oa' (Function.update home i (some b)) ∧ SameShape oa oa' ∧
        oa'.tombstones ≤ oa.tombstones := by
  have hlen : b < (oaCells oa).length := by rw [oaCells_length, hx.length]; exact hb
  obtain ⟨d, -, hpd, hfree, -⟩ := freeFrom_spec hlen hpos
  have hplt : pos < (oaCells oa).length := hpd ▸ probe_lt hlen d
  have hcell := cellAt_eq hplt
  have hdel := decodeCell_isDeleted (oa.indexGet .oa pos)
  rw [decode_indexGet hcell] at hdel
  have hone : i + 1 < allOnes (oa.width .oa) := by
    have := hs.position rfl
    unfold allOnes
    omega
  have hfull := decodeCell_full (width_bounds .oa oa) hone
  have hnew : (ProbeTable.Cell.full i).isDeleted = false := rfl
  have hcount := deletedCount_set (c := .full i) hcell
  have hput : ∀ t, SlotsOk (({ oa with tombstones := t } : OA V).indexSet .oa pos (i + 1))
      (Function.update home i (some b)) ↔
      deletedCount ((oaCells oa).set pos (.full i)) = t := by
    intro t
    have hcells : oaCells (({ oa with tombstones := t } : OA V).indexSet .oa pos (i + 1)) =
        (oaCells oa).set pos (.full i) := by
      rw [← hfull]
      exact oaCells_indexSet (Or.inl hone)
    refine ⟨fun h => hcells ▸ h.tombstones, fun h => ⟨?_, ?_, ?_⟩⟩
    · simpa [OA.indexSet] using hx.length
    · rw [hcells]
      exact index_insert hx.index hhi hlen hpos
    · rw [hcells]
      exact h
  simp only [oaPutSlot, oaTakeSlot, returns, wp_bind, wp_modify]
  refine ⟨?_, by split <;> exact ⟨⟨rfl, rfl, rfl⟩, by simp [OA.indexSet]⟩⟩
  have htomb := hx.tombstones
  split
  · rename_i h
    rw [hput]
    simp only [hdel.mpr h, hnew, ↓reduceIte, Bool.false_eq_true] at hcount
    omega
  · rename_i h
    have hnd : (cellAt (oaCells oa) pos).isDeleted = false := by
      simpa using fun h' => h (hdel.mp h')
    refine (hput oa.tombstones).mpr ?_
    simp only [hnd, hnew, ↓reduceIte, Bool.false_eq_true] at hcount
    omega

theorem oaIndexInsert_eq_put {Q : Unit → OA V → Prop}
    {E : PerlError → OA V → Prop} (hs : Sized .oa oa) (hi : i < oa.used)
    (hpos : freeSlot (oaCells oa) (bucketOf hash oa.buckets) = some pos) :
    wp (oaIndexInsert .oa i hash) oa Q E ↔ wp (oaPutSlot pos i) oa Q E := by
  have hone : ¬ i + 1 ≥ allOnes (oa.width .oa) := by
    have := hs.position rfl
    unfold allOnes
    omega
  simp [oaIndexInsert, oaPutSlot, oaTakeSlot, hpos, hone]

theorem freeSlot_of_room (hx : SlotsOk oa home) (hb : b < oa.buckets)
    (hroom : ∃ p : Nat, (oaCells oa)[p]? = some .empty) :
    ∃ pos, freeSlot (oaCells oa) b = some pos := by
  obtain ⟨p, hp⟩ := hroom
  have hlen : b < (oaCells oa).length := by rw [oaCells_length, hx.length]; exact hb
  obtain ⟨pos, hpos, -⟩ := find_none hx.index hlen hp
    (fun _ _ => rfl)
  exact ⟨pos, hpos⟩

theorem oaIndexInsert_spec (hs : Sized build oa)
    (hx : IndexOk build oa home) (hi : i < oa.used) (hhi : home i = none)
    (hroom : build = .oa → ∃ p : Nat, (oaCells oa)[p]? = some .empty) :
    returns (oaIndexInsert build i hash) oa fun _ oa' =>
      IndexOk build oa' (Function.update home i (some (bucketOf hash oa.buckets))) ∧
        SameShape oa oa' ∧ oa'.tombstones ≤ oa.tombstones := by
  have hb := bucketOf_lt hs.buckets hash
  cases build with
  | oa =>
    obtain ⟨pos, hpos⟩ := freeSlot_of_room hx hb (hroom rfl)
    rw [returns, oaIndexInsert_eq_put hs hi hpos]
    exact slotsOk_put hs hx hb hi hhi hpos
  | chains =>
    have hx : ChainsOk oa home := hx
    have hused := hs.used_le
    have hlen := hx.length
    simp only [oaIndexInsert, returns, wp_bind, wp_get, wp_modify]
    have hs1 : Sized .chains (oa.indexSet .chains (oa.buckets + i)
        (oa.indexGet .chains (bucketOf hash oa.buckets))) :=
      ⟨hs.buckets, hs.four_le, hs.le_max, hs.used_le, by simp⟩
    have hle := indexGet_le hx.bound (bucketOf hash oa.buckets)
    refine ⟨⟨by simpa [OA.indexSet] using hlen, ?_, ?_⟩, ⟨rfl, rfl, rfl⟩, le_refl _⟩
    · rw [indexGet_indexSet hs1 (by simp [OA.indexSet]; omega) (by simp [OA.indexSet]; omega),
        indexGet_indexSet hs (by omega) hle]
      exact indexes_push hx.chains hb hhi
    · exact bound_indexSet hs1 (by simp [OA.indexSet]; omega) (bound_indexSet hs hle hx.bound)

theorem oaIndexDelete_spec (hs : Sized build oa) (hh : HomesIn oa home)
    (hx : IndexOk build oa home) (hr : Refers build oa home pos i) :
    returns (oaIndexDelete build pos) oa fun _ oa' =>
      IndexOk build oa' (Function.update home i none) ∧ SameShape oa oa' ∧
        (build = .oa → oa'.tombstones ≤ oa.tombstones + 1) := by
  cases build with
  | oa =>
    have hx : SlotsOk oa home := hx
    have hr : (oaCells oa)[pos]? = some (.full i) := hr
    simp only [oaIndexDelete, returns, wp_bind, wp_modify]
    have hcells : oaCells (oa.indexSet .oa pos oaDeleted) = (oaCells oa).set pos .deleted := by
      rw [oaCells_indexSet (Or.inr rfl)]
      rfl
    have hcount := deletedCount_set (c := .deleted) hr
    have htomb := hx.tombstones
    have hold : (ProbeTable.Cell.full i).isDeleted = false := rfl
    have hnew : (ProbeTable.Cell.deleted : ProbeTable.Cell Nat).isDeleted = true := rfl
    simp only [hold, hnew, ↓reduceIte, Bool.false_eq_true] at hcount
    refine ⟨⟨?_, ?_, ?_⟩, ⟨rfl, rfl, rfl⟩, fun _ => le_refl _⟩
    · simpa [OA.indexSet] using hx.length
    · show ProbeTable.Index (oaCells (oa.indexSet .oa pos oaDeleted)) _
      rw [hcells]
      exact index_delete hx.index hr
    · show deletedCount (oaCells (oa.indexSet .oa pos oaDeleted)) = oa.tombstones + 1
      rw [hcells]
      omega
  | chains =>
    have hx : ChainsOk oa home := hx
    obtain ⟨b, l₁, l₂, hib, hb, hc, rfl⟩ := hr
    have hlen := hx.length
    have hused := hs.used_le
    have hiu := hh.used i (by simp [hib])
    obtain ⟨l, hl, -, hmem⟩ := hx.chains b hb
    obtain rfl := chain_unique hl hc
    obtain ⟨hid, htail⟩ := chain_link hc
    have hplt : link oa.buckets b l₁ < oa.indices.length := by
      rcases link_eq oa.buckets b l₁ with ⟨-, hk⟩ | ⟨j, hj, hk⟩
      · omega
      · have := hh.used j (by rw [(hmem j).mp (by simp [hj])]; simp)
        omega
    simp only [oaIndexDelete, returns, wp_bind, wp_get, wp_modify]
    rw [hid, Nat.add_sub_cancel]
    have hle := indexGet_le hx.bound (oa.buckets + i)
    have hs1 : Sized .chains (oa.indexSet .chains (link oa.buckets b l₁)
        (oa.indexGet .chains (oa.buckets + i))) :=
      ⟨hs.buckets, hs.four_le, hs.le_max, hs.used_le, by simp⟩
    refine ⟨⟨by simpa [OA.indexSet] using hlen, ?_, ?_⟩, ⟨rfl, rfl, rfl⟩, by simp⟩
    · rw [indexGet_indexSet hs1 (by simp [OA.indexSet]; omega) (Nat.zero_le _),
        indexGet_indexSet hs hplt hle]
      exact indexes_unlink hx.chains hb hc
    · exact bound_indexSet hs1 (Nat.zero_le _) (bound_indexSet hs hle hx.bound)

theorem indexGet_ne_deleted (hs : Sized build oa) (hx : IndexOk build oa home)
    (hr : Refers build oa home pos i) : oa.indexGet build pos ≠ oaDeleted := by
  cases build with
  | chains =>
    have hx : ChainsOk oa home := hx
    have hle := indexGet_le hx.bound pos
    have hmax := hs.le_max
    have hi : i32Max = 2147483647 := by decide
    have hd : oaDeleted = 4294967295 := by decide
    omega
  | oa =>
    have hr : (oaCells oa)[pos]? = some (.full i) := hr
    intro hdel
    rw [oaCells, List.getElem?_map] at hr
    obtain ⟨raw, hraw, hcell⟩ := Option.map_eq_some_iff.mp hr
    have hget : readCell .oa (oa.width .oa) raw = oaDeleted := by
      rw [← hdel, OA.indexGet, List.getD_eq_getElem?_getD, hraw]
      rfl
    rw [hget] at hcell
    simp [decodeCell, oaDeleted, u32Max] at hcell

theorem oaFindIndexed_some (hs : Sized build oa) (hh : HomesIn oa home)
    (hx : IndexOk build oa home) (hi : home i = some (bucketOf k.hash oa.buckets))
    (hk : entryHasKey oa.entries k i = true)
    (huniq : ∀ j, home j ≠ none → entryHasKey oa.entries k j = true → j = i) :
    ∃ pos, oaFindIndexed build oa k = some ⟨some i, some pos⟩ ∧
      Refers build oa home pos i := by
  have hb := bucketOf_lt hs.buckets k.hash
  cases build with
  | oa =>
    have hx : SlotsOk oa home := hx
    obtain ⟨pos, hpos, hfind⟩ := find_some hx.index hi
      (by rw [oaCells_length, hx.length]; exact hb) hk huniq
    exact ⟨pos, by simp [oaFindIndexed, hfind], hpos⟩
  | chains =>
    have hx : ChainsOk oa home := hx
    obtain ⟨l, hl, hnd, hmem⟩ := hx.chains _ hb
    have hsub : l ⊆ List.range oa.used := by
      intro j hj
      rw [List.mem_range]
      exact hh.used j (by rw [(hmem j).mp hj]; simp)
    have hlen := (List.subperm_of_subset hnd hsub).length_le
    rw [List.length_range] at hlen
    have hused := hs.used_le
    have h8 := hs.buckets.ge
    rcases walk_eq (by omega) (entryHasKey oa.entries k) (oa.capacity + 1)
      hl (by omega) with ⟨hnone, -⟩ | ⟨l₁, j, l₂, rfl, -, hj, hw⟩
    · rw [hnone i ((hmem i).mpr hi)] at hk
      simp at hk
    · obtain rfl : j = i := huniq j (by rw [(hmem j).mp (by simp)]; simp) hj
      exact ⟨_, by simp [oaFindIndexed, hw], _, l₁, l₂, hi, hb, hl, rfl⟩

theorem oaFindIndexed_none (hs : Sized build oa) (hh : HomesIn oa home)
    (hx : IndexOk build oa home)
    (hroom : build = .oa → ∃ p : Nat, (oaCells oa)[p]? = some .empty)
    (hnone : ∀ j, home j ≠ none → entryHasKey oa.entries k j = false) :
    ∃ slot, oaFindIndexed build oa k = some ⟨none, slot⟩ ∧
      (∀ pos, slot = some pos → build = .oa ∧
        freeSlot (oaCells oa) (bucketOf k.hash oa.buckets) = some pos) := by
  have hb := bucketOf_lt hs.buckets k.hash
  cases build with
  | oa =>
    have hx : SlotsOk oa home := hx
    obtain ⟨p, hp⟩ := hroom rfl
    obtain ⟨pos, hpos, hfind⟩ := find_none hx.index
      (by rw [oaCells_length, hx.length]; exact hb) hp hnone
    exact ⟨some pos, by simp [oaFindIndexed, hfind], by simpa using hpos⟩
  | chains =>
    have hx : ChainsOk oa home := hx
    obtain ⟨l, hl, hnd, hmem⟩ := hx.chains _ hb
    have hsub : l ⊆ List.range oa.used := by
      intro j hj
      rw [List.mem_range]
      exact hh.used j (by rw [(hmem j).mp hj]; simp)
    have hlen := (List.subperm_of_subset hnd hsub).length_le
    rw [List.length_range] at hlen
    have hused := hs.used_le
    have h8 := hs.buckets.ge
    rcases walk_eq (by omega) (entryHasKey oa.entries k) (oa.capacity + 1)
      hl (by omega) with ⟨-, hw⟩ | ⟨l₁, j, l₂, rfl, -, hj, -⟩
    · exact ⟨none, by simp [oaFindIndexed, hw], by simp⟩
    · rw [hnone j (by rw [(hmem j).mp (by simp)]; simp)] at hj
      simp at hj

theorem indexOk_empty (oa : OA V) (hz : oa.indices =
      List.replicate (indexCells build oa.buckets oa.capacity) 0) (ht : oa.tombstones = 0) :
    IndexOk build oa fun _ => none := by
  cases build with
  | chains =>
    refine ⟨by simp [hz, indexCells], ?_, ?_⟩
    · have hget : oa.indexGet .chains = fun _ => 0 := by
        funext pos
        rw [indexGet_chains, hz, List.getD_eq_getElem?_getD, List.getElem?_replicate]
        split <;> rfl
      rw [hget]
      exact indexes_empty _
    · intro v hv
      rw [hz] at hv
      simp [List.eq_of_mem_replicate hv]
  | oa =>
    have hcells : oaCells oa = List.replicate oa.buckets .empty := by
      have hw := width_bounds .oa oa
      have hne : allOnes (oa.width .oa) ≠ 0 := by
        have : 256 ^ 1 ≤ 256 ^ oa.width .oa := Nat.pow_le_pow_right (by omega) hw.1
        unfold allOnes
        omega
      simp [oaCells, hz, indexCells, readCell, hne.symm, decodeCell]
    refine ⟨by simp [hz, indexCells], ?_, ?_⟩
    · rw [hcells]
      exact index_empty _
    · rw [hcells, ht, deletedCount_replicate]

theorem oaReserveEntries_spec (hs : Sized build oa) (hh : HomesIn oa home)
    (hx : IndexOk build oa home) (hc : capacity ≤ i32Max) :
    returns (oaReserveEntries build capacity) oa fun _ oa' =>
      IndexOk build oa' home ∧ oa'.entries = oa.entries ∧ oa'.buckets = oa.buckets ∧
        oa'.tombstones = oa.tombstones ∧ oa'.capacity = max oa.capacity capacity ∧
        (build = .oa → oaCells oa' = oaCells oa) := by
  simp only [oaReserveEntries, returns, wp_bind, wp_get, wp_ite, wp_pure, wp_throwIf, wp_set]
  refine ⟨fun hle => ⟨hx, trivial, trivial, trivial, by omega, fun _ => trivial⟩, fun hgt => ?_⟩
  rw [hvOaSizeValid_of hs.buckets hc]
  refine ⟨by simp, fun _ => ⟨?_, trivial, trivial, trivial, by omega, ?_⟩⟩
  · cases build with
    | oa => exact ⟨hx.length, hx.index, hx.tombstones⟩
    | chains =>
      have hx : ChainsOk oa home := hx
      have hlen := hx.length
      have hbound := hx.bound
      have hmap : oa.indices.map (writeCell .chains (indexWidthFor .chains capacity)) =
          oa.indices := by
        refine (List.map_congr_left fun v hv => ?_).trans (List.map_id _)
        exact Nat.mod_eq_of_lt (chains_fits hc (by have := hbound v hv; omega))
      have hgrown : grownIndices .chains oa capacity =
          oa.indices ++ List.replicate (capacity - oa.capacity) 0 := by
        simp only [grownIndices, hmap, ite_self]
      have hget : ∀ pos < oa.indices.length,
          (oa.indices ++ List.replicate (capacity - oa.capacity) 0).getD pos 0 =
            oa.indices.getD pos 0 := by
        intro pos hp
        simp only [List.getD_eq_getElem?_getD]
        rw [List.getElem?_append_left hp]
      refine ⟨?_, ?_, ?_⟩
      · simp only [hgrown, List.length_append, List.length_replicate]
        omega
      · intro b hb
        obtain ⟨l, hl, hnd, hmem⟩ := hx.chains b hb
        refine ⟨l, ?_, hnd, hmem⟩
        have hb' : b < oa.buckets := hb
        have hused := hs.used_le
        simp only [indexGet_chains, hgrown, hget b (by omega)]
        refine chain_congr hl fun i hi => hget _ ?_
        have := hh.used i (by rw [(hmem i).mp hi]; simp)
        omega
      · intro v hv
        simp only [hgrown, List.mem_append, List.mem_replicate] at hv
        rcases hv with h | ⟨-, rfl⟩
        · have := hbound v h
          show v ≤ capacity
          omega
        · exact Nat.zero_le _
  · rintro rfl
    rfl

end XPerl.Hash
