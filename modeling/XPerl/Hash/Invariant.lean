import XPerl.Framework.SparseList
import XPerl.Hash.Index
import XPerl.Hash.View

/-! Storage of the entries, well-formed hashes, and the view that storage changes must preserve. -/

namespace XPerl.Hash

open XPerl.Framework XPerl.Framework.Exec

variable {V : Type}

def Config.linearEnabled (cfg : Config) : Bool := cfg.linearMax != 0

/-- Entries kept so far by a compaction, and the cursor repaired for them. -/
structure Packed (V : Type) where
  entries : List (HE V)
  eiter : Option (EIter V)
  riter : Int

/-- One round of the compaction loop of S_oa_rebuild. -/
def packEntry (hv : HV V) (p : Packed V) (i : Nat) (he : HE V) : Packed V :=
  let p' : Packed V :=
    if hv.lazydel && hv.isCurrent i then
      -- the deleted key is detached from the array, still owned by the iterator
      { p with eiter := some (.retired he) }
    else if he.hek.isSome then
      { p with
        entries := p.entries ++ [he]
        eiter := if hv.isCurrent i then some (.slot p.entries.length) else p.eiter }
    else p
  if 0 ≤ hv.riter ∧ (i : Int) ≤ hv.riter then { p' with riter := p'.entries.length - 1 } else p'

def packEntries (hv : HV V) : Packed V :=
  hv.entries.zipIdx.foldl (fun p e => packEntry hv p e.2 e.1) ⟨[], hv.eiter, -1⟩

def rebuildCompacts (build : Build) (hv : HV V) (capacity entryCapacity : Nat) (pack : Bool) :
    Bool :=
  let used := hv.entries.length
  let holes := used - hv.keys
  decide (holes ≠ 0) && (pack || decide (entryCapacity < used) ||
    (build == .oa && decide (capacity ≤ 128 ∧ used ≥ 0xFE ∨ capacity ≤ 32768 ∧ used ≥ 0xFFFE)))

def compacted (hv : HV V) : HV V :=
  let p := packEntries hv
  (hv.withEntries p.entries).modifyAux fun a =>
    { a with eiter := p.eiter, riter := p.riter, iterActive := a.iterActive || decide (0 ≤ hv.riter) }

def clearedIndex (build : Build) (es : List (HE V)) (capacity entryCapacity : Nat) : OA V where
  entries := es
  buckets := capacity
  capacity := entryCapacity
  tombstones := 0
  indices := List.replicate (indexCells build capacity entryCapacity) 0

def reallocated (build : Build) (hv : HV V) (capacity entryCapacity : Nat) : HV V :=
  { hv with storage := .indexed (clearedIndex build hv.entries capacity entryCapacity) }

def reindexEntry (build : Build) (i : Nat) : HvM V Unit := do
  let hv ← get
  match hv.hvEntryFirst i with
  | none => pure ()
  | some he => onOA (oaIndexInsert build i (he.hek.elim 0 HEK.hash))

/-- S_oa_rebuild. Whether the old index block is reused makes no difference to the new
contents. -/
def oaRebuild (build : Build) (capacity entryCapacity : Nat) (pack : Bool) : HvM V Unit := do
  let hv ← get
  throwIf (capacity > hvMaxBuckets ∨ hv.keys > hvMaxKeys) .hashCapacityExceeded
  throwIf (hvOaSizeValid build capacity entryCapacity = false ∨
    hv.keys > rebuildKeyLimit build capacity) .memoryWrap
  let hv' := if rebuildCompacts build hv capacity entryCapacity pack then compacted hv else hv
  set (reallocated build hv' capacity entryCapacity)
  (List.range hv'.entries.length).forM (reindexEntry build)

/-- Entry capacity that S_oa_index_resize starts from. -/
def resizeEntryCapacity (build : Build) (hv : HV V) (capacity : Nat) : Nat :=
  match build, hv.storage with
  | .chains, .indexed oa => oa.capacity
  | .chains, _ => max hv.keys 8
  | .oa, .indexed oa =>
    if capacity ≤ oaCoupledMax ∧ oa.capacity < oaEntryCapacity capacity then
      oaEntryCapacity capacity
    else oa.capacity
  | .oa, _ => oaEntryCapacity (min capacity oaCoupledMax)

def oaIndexResize (build : Build) (capacity : Nat) : HvM V Unit := do
  let hv ← get
  match growEntryCapacity hv.keys hv.keys (resizeEntryCapacity build hv capacity) with
  | none => throw .undefined
  | some entryCapacity =>
    oaRebuild build capacity entryCapacity (match hv.storage with
      | .indexed old => oaCompactionWorthwhile old.used hv.keys old.capacity
      | _ => false)

def oaPromote (build : Build) : HvM V Unit := do
  let hv ← get
  match promoteCapacity hv.keys 31 8 with
  | none => throw .hashCapacityExceeded
  | some cap => oaIndexResize build cap

/-- S_linear_reserve. The iterator's position is an offset, so moving the vector leaves
it alone. -/
def linearReserve (capacity : Nat) : HvM V Unit :=
  modify fun hv =>
    match hv.storage with
    | .linear cap es => if capacity ≤ cap then hv else { hv with storage := .linear capacity es }
    | _ => { hv with storage := .linear capacity [] }

/-- First rebuild of S_oa_new_entry: holes are packed before the array grows. The slot
saved by the lookup is lost. -/
def oaPackHoles (build : Build) (slot : Option Nat) : HvM V (Option Nat) := do
  let hv ← get
  match hv.storage with
  | .indexed oa =>
    let shrinkEntries := max 8 (hv.keys + hv.keys / 4 + 1)
    if (oa.used = oa.capacity ∨ shrinkEntries ≤ oa.capacity / 2) ∧
        oaCompactionWorthwhile oa.used hv.keys oa.capacity = true then
      let smallerIndex ← oaRebuildCapacity (hv.keys + 1) 8
      oaRebuild build (if smallerIndex ≤ oa.buckets / 2 then smallerIndex else oa.buckets)
        (if shrinkEntries ≤ oa.capacity / 2 then shrinkEntries else oa.capacity) true
      pure none
    else pure slot
  | _ => throw .undefined

def oaRelieveIndex (build : Build) (slot : Option Nat) : HvM V (Option Nat) := do
  let hv ← get
  match hv.storage with
  | .indexed oa =>
    match build with
    | .chains =>
      if hv.keys ≥ oaEntryCapacity oa.buckets then
        let capacity ← oaRebuildCapacity hv.keys 8
        oaIndexResize build capacity
        pure none
      else pure slot
    | .oa =>
      if hv.keys + oa.tombstones ≥ oaEntryCapacity oa.buckets then
        if oa.tombstones < (hv.keys + oa.tombstones + 1) / 2 then
          let capacity ← oaRebuildCapacity hv.keys 8
          oaIndexResize build capacity
        else oaIndexResize build oa.buckets
        pure none
      else pure slot
  | _ => throw .undefined

def oaGrowCoupled (build : Build) (slot : Option Nat) : HvM V (Option Nat) := do
  let hv ← get
  match hv.storage with
  | .indexed oa =>
    if build = .oa ∧ oa.used = oa.capacity ∧ oa.buckets ≤ oaCoupledMax ∧
        oa.capacity ≥ oaEntryCapacity oa.buckets then
      let capacity ← oaRebuildCapacity hv.keys (oa.buckets * 2)
      oaIndexResize build capacity
      pure none
    else pure slot
  | _ => throw .undefined

def oaGrowEntries (build : Build) : HvM V Unit := do
  let hv ← get
  match hv.storage with
  | .indexed oa =>
    if oa.used = oa.capacity then
      let increment := oa.capacity / 4
      let capacity := (oa.capacity + increment) % 2 ^ 32
      throwIf (increment = 0 ∨ capacity < oa.capacity) .memoryWrap
      onOA (oaReserveEntries build capacity)
    else pure ()
  | _ => throw .undefined

def oaFitPositions (build : Build) (slot : Option Nat) : HvM V (Option Nat) := do
  let hv ← get
  match hv.storage with
  | .indexed oa =>
    if build = .oa ∧ (oa.buckets ≤ 128 ∧ oa.used ≥ 0xFE ∨ oa.buckets ≤ 32768 ∧ oa.used ≥ 0xFFFE) then
      oaIndexResize build oa.buckets
      pure none
    else pure slot
  | _ => throw .undefined

/-- S_oa_new_entry: position of a fresh vacant entry, and the saved slot if it is still
valid. -/
def oaNewEntry (build : Build) (slot : Option Nat) : HvM V (Nat × Option Nat) := do
  let slot ← oaPackHoles build slot
  let slot ← oaRelieveIndex build slot
  let slot ← oaGrowCoupled build slot
  oaGrowEntries build
  let slot ← oaFitPositions build slot
  let hv ← get
  set (hv.withEntries (hv.entries ++ [HE.vacant]))
  pure (hv.entries.length, slot)

/-- S_linear_new_entry: position of the next entry, after promotion if the vector is
full. -/
def linearNewEntry (cfg : Config) : HvM V Nat := do
  let hv ← get
  match hv.storage with
  | .linear cap es =>
    if cap = 0 ∧ es.length = 0 then
      set ({ hv with storage := .linear 1 [] } : HV V)
      pure 0
    else if es.length = cap then
      if cap < cfg.linearMax then
        let next := min (if cap = 0 then 1 else cap * 2) cfg.linearMax
        throwIf (next ≤ cap ∨ next > 63) .memoryWrap
        linearReserve next
        pure es.length
      else
        oaPromote cfg.build
        let (i, _) ← oaNewEntry cfg.build none
        pure i
    else pure es.length
  | _ => throw .undefined

/-- The cursor once position `idx` of a linear vector is removed. -/
def Aux.removedAt (idx : Nat) (a : Aux V) : Aux V :=
  { a with
    riter := if 0 ≤ a.riter ∧ (idx : Int) ≤ a.riter then a.riter - 1 else a.riter
    eiter := match a.eiter with
      | some (.slot j) =>
        if j = idx then none else if idx < j then some (.slot (j - 1)) else some (.slot j)
      | e => e }

/-- S_linear_remove_at, with the cursor repaired for the removed position. The caller
takes the key. -/
def linearRemoveAt (hv : HV V) (idx : Nat) : HV V :=
  match hv.storage with
  | .linear cap es =>
    let hv := hv.modifyAux (Aux.removedAt idx)
    let cap' := if es.length = 1 then 0 else if es.length = 2 then 1 else cap
    { hv with storage := .linear cap' (es.eraseIdx idx), keys := hv.keys - 1 }
  | _ => hv

/-- S_oa_free_deleted: vacate a position and release its key. -/
def oaFreeDeleted (hv : HV V) (i : Nat) : HV V :=
  match hv.entries[i]?.bind HE.hek with
  | none => hv
  | some hek => (hv.modifyEntry i fun _ => HE.vacant).freeKey hek

def freeLazy (hv : HV V) (eiter : EIter V) : HV V :=
  match eiter with
  | .slot i => oaFreeDeleted hv i
  | .retired he => he.hek.elim hv hv.freeKey

variable {cfg : Config} {build : Build} {hv : HV V}

/-- What iteration still has to visit. -/
structure Cursor (V : Type) where
  unvisited : List (HE V)
  inserted : Bool
  /-- whether the auxiliary structure exists -/
  present : Bool

namespace HV

variable (hv : HV V)

/-- The key of the entry that was deleted while the iterator stood on it. -/
def pendingHek : Option HEK := if hv.lazydel then hv.current.bind HE.hek else none

def currentId : Option KeyId := if hv.lazydel then none else hv.current.bind HE.id

def view : View V where
  live := hv.live
  current := hv.currentId
  pending := hv.pendingHek
  keys := hv.keys
  placeholders := hv.placeholders
  readonly := hv.readonly
  lazydel := hv.lazydel
  hasKFlags := hv.hasKFlags
  shareKeys := hv.shareKeys
  freed := hv.freed
  nextRef := hv.nextRef

def cursor : Cursor V := ⟨hv.unvisited, hv.aux.any Aux.iterInserted, hv.aux.isSome⟩

def homeOf (oa : OA V) (i : Nat) : Option Nat :=
  (hv.hvEntryFirst i).bind fun he => he.hek.map fun k => bucketOf k.hash oa.buckets

end HV

def indexLoad (build : Build) (hv : HV V) (oa : OA V) : Nat :=
  match build with
  | .chains => hv.keys
  | .oa => hv.keys + oa.tombstones

structure IndexedOk (build : Build) (hv : HV V) (oa : OA V) : Prop where
  sized : Sized build oa
  index : IndexOk build oa (hv.homeOf oa)
  load : indexLoad build hv oa ≤ oaEntryCapacity oa.buckets

def StorageOk (cfg : Config) (hv : HV V) : Prop :=
  match hv.storage with
  | .unallocated buckets => IsBucketCount buckets ∧ hv.lazydel = false
  | .linear cap es => cfg.linearMax ≠ 0 ∧ es.length ≤ cap ∧ cap ≤ cfg.linearMax ∧
      (∀ he ∈ es, he.hek.isSome = true) ∧ hv.lazydel = false
  | .indexed oa => IndexedOk cfg.build hv oa

/-- The entry pointer is NULL, a live entry, or the lazily deleted entry. -/
structure CursorOk (hv : HV V) : Prop where
  riter : -1 ≤ hv.riter
  slot : ∀ i, hv.eiter = some (.slot i) → hv.lazydel = false → (hv.hvEntryFirst i).isSome = true
  retired : ∀ he, hv.eiter = some (.retired he) → hv.lazydel = true

structure WF (cfg : Config) (hv : HV V) : Prop where
  storage : StorageOk cfg hv
  cursor : CursorOk hv
  view : hv.view.Ok

/-! Positions and live entries. -/

theorem hvEntryFirst_unallocated {n : Nat} (h : hv.storage = .unallocated n) (i : Nat) :
    hv.hvEntryFirst i = none := by
  simp [HV.hvEntryFirst, h]

variable {cap i : Nat} {es : List (HE V)} {oa : OA V} {he : HE V}

theorem hvEntryFirst_linear (h : hv.storage = .linear cap es)
    (i : Nat) : hv.hvEntryFirst i = es[i]? := by
  simp [HV.hvEntryFirst, h]

theorem hvEntryFirst_indexed (h : hv.storage = .indexed oa) (i : Nat) :
    hv.hvEntryFirst i =
      oa.entries[i]?.filter fun he => he.hek.isSome && !(hv.lazydel && hv.isCurrent i) := by
  simp [HV.hvEntryFirst, h]

theorem entries_linear (h : hv.storage = .linear cap es) :
    hv.entries = es := by
  simp [HV.entries, h]

theorem entries_indexed (h : hv.storage = .indexed oa) : hv.entries = oa.entries := by
  simp [HV.entries, h]

theorem entries_unallocated {n : Nat} (h : hv.storage = .unallocated n) : hv.entries = [] := by
  simp [HV.entries, h]

theorem entries_withEntries (h : ∀ n, hv.storage = .unallocated n → es = []) :
    (hv.withEntries es).entries = es := by
  unfold HV.withEntries HV.entries Storage.withEntries
  cases hs : hv.storage with
  | unallocated n => exact (h n hs).symm
  | linear cap es' => rfl
  | indexed oa => rfl

theorem isCurrent_iff : hv.isCurrent i = true ↔ hv.eiter = some (.slot i) := by
  unfold HV.isCurrent
  split
  · rename_i j hj
    simp [hj]
  · rename_i hne
    refine ⟨fun h => by simp at h, fun h => absurd h (hne i)⟩

theorem entry_of_first (h : hv.hvEntryFirst i = some he) :
    hv.entries[i]? = some he := by
  cases hs : hv.storage with
  | unallocated n => simp [hvEntryFirst_unallocated hs] at h
  | linear cap es => rwa [entries_linear hs, ← hvEntryFirst_linear hs]
  | indexed oa =>
    rw [hvEntryFirst_indexed hs] at h
    rw [entries_indexed hs]
    exact (Option.filter_eq_some_iff.mp h).1

theorem lt_of_first (h : hv.hvEntryFirst i = some he) :
    i < hv.hvEntryLimit := by
  obtain ⟨hlt, -⟩ := List.getElem?_eq_some_iff.mp (entry_of_first h)
  exact hlt

theorem slots_length : hv.slots.length = hv.hvEntryLimit := by
  simp [HV.slots]

theorem slots_getElem? :
    hv.slots[i]? = if i < hv.hvEntryLimit then some (hv.hvEntryFirst i) else none := by
  unfold HV.slots
  rw [List.getElem?_map]
  split
  · rename_i h
    simp [List.getElem?_range h]
  · rename_i h
    simp [List.getElem?_eq_none (l := List.range hv.hvEntryLimit) (i := i) (by simpa using h)]

theorem slots_of_first (h : hv.hvEntryFirst i = some he) :
    hv.slots[i]? = some (some he) := by
  rw [slots_getElem?, if_pos (lt_of_first h), h]

theorem first_of_slots (h : hv.slots[i]? = some (some he)) :
    hv.hvEntryFirst i = some he := by
  rw [slots_getElem?] at h
  split at h
  · exact Option.some.inj h
  · simp at h

theorem mem_live : he ∈ hv.live ↔ ∃ i, hv.hvEntryFirst i = some he := by
  unfold HV.live
  rw [List.reduceOption_mem_iff, List.mem_iff_getElem?]
  exact ⟨fun ⟨i, h⟩ => ⟨i, first_of_slots h⟩, fun ⟨i, h⟩ => ⟨i, slots_of_first h⟩⟩

theorem slots_linear (h : hv.storage = .linear cap es) :
    hv.slots = es.map some := by
  apply List.ext_getElem?
  intro i
  rw [slots_getElem?, hvEntryFirst_linear h, HV.hvEntryLimit, entries_linear h, List.getElem?_map]
  split
  · rename_i hi
    simp [List.getElem?_eq_getElem hi]
  · rename_i hi
    simp [List.getElem?_eq_none (Nat.le_of_not_lt hi)]

theorem slots_eq_of {hv' : HV V} (hl : hv'.hvEntryLimit = hv.hvEntryLimit)
    (hf : ∀ i < hv.hvEntryLimit, hv'.hvEntryFirst i = hv.hvEntryFirst i) :
    hv'.slots = hv.slots := by
  apply List.ext_getElem?
  intro i
  rw [slots_getElem?, slots_getElem?, hl]
  split
  · rename_i hi
    rw [hf i hi]
  · rfl

theorem current_eq_of {hv' : HV V} (heit : hv'.eiter = hv.eiter)
    (hes : ∀ i, hv.eiter = some (.slot i) → hv'.entries[i]? = hv.entries[i]?) :
    hv'.current = hv.current := by
  unfold HV.current
  rw [heit]
  cases h : hv.eiter with
  | none => rfl
  | some e =>
    cases e with
    | slot i => exact hes i h
    | retired he => rfl

namespace WF

variable (wf : WF cfg hv)
include wf

theorem keys_eq : hv.keys = hv.live.length := wf.view.keys

theorem hek_of_first {i : Nat} {he : HE V} (h : hv.hvEntryFirst i = some he) :
    ∃ hek, he.hek = some hek :=
  Option.isSome_iff_exists.mp (wf.view.heks he (mem_live.mpr ⟨i, h⟩))

theorem unique {i j : Nat} {he he' : HE V} (hi : hv.hvEntryFirst i = some he)
    (hj : hv.hvEntryFirst j = some he') (hid : he.id = he'.id) : i = j :=
  SparseList.index_unique wf.view.distinct (slots_of_first hi) (slots_of_first hj) hid

theorem indexed {oa : OA V} (h : hv.storage = .indexed oa) : IndexedOk cfg.build hv oa := by
  have := wf.storage
  simpa only [StorageOk, h] using this

theorem homesIn {oa : OA V} (h : hv.storage = .indexed oa) : HomesIn oa (hv.homeOf oa) := by
  refine ⟨fun i hi => ?_, fun i b hb => ?_⟩
  · cases hf : hv.hvEntryFirst i with
    | none => simp [HV.homeOf, hf] at hi
    | some he =>
      have := lt_of_first hf
      rwa [HV.hvEntryLimit, entries_indexed h] at this
  · obtain ⟨he, -, hk⟩ := Option.bind_eq_some_iff.mp hb
    obtain ⟨k, -, rfl⟩ := Option.map_eq_some_iff.mp hk
    exact bucketOf_lt (wf.indexed h).sized.buckets _

end WF

theorem homeOf_ne_none (h : hv.homeOf oa i ≠ none) :
    ∃ he hek, hv.hvEntryFirst i = some he ∧ he.hek = some hek ∧
      hv.homeOf oa i = some (bucketOf hek.hash oa.buckets) := by
  cases hf : hv.hvEntryFirst i with
  | none => simp [HV.homeOf, hf] at h
  | some he =>
    cases hk : he.hek with
    | none => simp [HV.homeOf, hf, hk] at h
    | some hek => exact ⟨he, hek, rfl, hk, by simp [HV.homeOf, hf, hk]⟩

theorem oaKeyEq_iff {hek : HEK} {k : KeyId} : oaKeyEq hek k = true ↔ hek.id = k := by
  cases k
  simp [oaKeyEq, HEK.id, and_assoc]

theorem entryHasKey_of_first {k : KeyId} (h : hv.hvEntryFirst i = some he) :
    entryHasKey hv.entries k i = true ↔ he.id = some k := by
  rw [entryHasKey, entry_of_first h]
  cases hk : he.hek with
  | none => simp [HE.id, hk]
  | some hek => simp [HE.id, hk, oaKeyEq_iff]

def HV.livePositions (hv : HV V) : List Nat :=
  (List.range hv.hvEntryLimit).filter fun i => (hv.hvEntryFirst i).isSome

theorem livePositions_length : hv.livePositions.length = hv.live.length := by
  unfold HV.livePositions HV.live HV.slots List.reduceOption
  rw [List.filterMap_map, ← List.countP_eq_length_filter, List.length_filterMap_eq_countP]
  rfl

theorem exists_empty_slot {home : Nat → Option Nat} (hx : SlotsOk oa home)
    (hh : ∀ i, home i ≠ none → (hv.hvEntryFirst i).isSome = true)
    (hload : hv.live.length + oa.tombstones < oa.buckets) :
    ∃ p : Nat, (oaCells oa)[p]? = some .empty := by
  have hids : ∀ i, home i ≠ none → i ∈ hv.livePositions := by
    intro i hi
    obtain ⟨he, hf⟩ := Option.isSome_iff_exists.mp (hh i hi)
    exact List.mem_filter.mpr ⟨List.mem_range.mpr (lt_of_first hf), hh i hi⟩
  have hle := ProbeTable.contents_length_le hx.index hids
  rw [livePositions_length] at hle
  refine ProbeTable.exists_empty ?_
  rw [hx.tombstones, oaCells_length, hx.length]
  omega

theorem WF.room (wf : WF cfg hv) (h : hv.storage = .indexed oa)
    (hb : cfg.build = .oa) : ∃ p : Nat, (oaCells oa)[p]? = some .empty := by
  have hx := wf.indexed h
  have hload := hx.load
  have hslots := hx.index
  rw [hb] at hload hslots
  refine exists_empty_slot hslots (fun i hi => (?_ : (hv.hvEntryFirst i).isSome = true)) ?_
  · obtain ⟨he, -, hf, -⟩ := homeOf_ne_none hi
    simp [hf]
  · have := oaEntryCapacity_lt (n := oa.buckets) (by have := hx.sized.buckets.ge; omega)
    have hk := wf.keys_eq
    simp only [indexLoad] at hload
    omega

def SavedSlot (build : Build) (hv : HV V) (hash : UInt32) (slot : Option Nat) : Prop :=
  ∀ pos, slot = some pos → ∃ oa, hv.storage = .indexed oa ∧ build = .oa ∧
    ProbeTable.freeSlot (oaCells oa) (bucketOf hash oa.buckets) = some pos

theorem oaFind_spec (wf : WF cfg hv) (k : KeyId) :
    (∃ i he slot, hv.hvEntryFirst i = some he ∧ he.id = some k ∧
      oaFind cfg.build hv k = some ⟨some i, slot⟩ ∧
      ∀ oa, hv.storage = .indexed oa →
        ∃ pos, slot = some pos ∧ Refers cfg.build oa (hv.homeOf oa) pos i) ∨
    (∃ slot, (∀ he ∈ hv.live, he.id ≠ some k) ∧ oaFind cfg.build hv k = some ⟨none, slot⟩ ∧
      SavedSlot cfg.build hv k.hash slot) := by
  by_cases hex : ∃ he ∈ hv.live, he.id = some k
  · left
    obtain ⟨he, hmem, hid⟩ := hex
    obtain ⟨i, hi⟩ := mem_live.mp hmem
    have huniq : ∀ j he', hv.hvEntryFirst j = some he' → he'.id = some k → j = i :=
      fun j he' hj hid' => wf.unique hj hi (hid'.trans hid.symm)
    have hkey := (entryHasKey_of_first (k := k) hi).mpr hid
    cases hs : hv.storage with
    | unallocated n => rw [hvEntryFirst_unallocated hs] at hi; simp at hi
    | linear cap es =>
      have hlt := lt_of_first hi
      rw [HV.hvEntryLimit, entries_linear hs] at hlt
      rw [entries_linear hs] at hkey
      refine ⟨i, he, none, hi, hid, ?_, by simp⟩
      simp only [oaFind, hs, Option.some.injEq, FindResult.mk.injEq, and_true]
      refine List.find?_range_eq_some.mpr ⟨hkey, List.mem_range.mpr hlt, fun j hj => ?_⟩
      cases hjf : hv.hvEntryFirst j with
      | none =>
        rw [hvEntryFirst_linear hs] at hjf
        simp [entryHasKey, hjf]
      | some he' =>
        by_contra hcon
        have hkj : entryHasKey hv.entries k j = true := by
          rw [entries_linear hs]
          simpa using hcon
        have := huniq j he' hjf ((entryHasKey_of_first hjf).mp hkj)
        omega
    | indexed oa =>
      have hx := wf.indexed hs
      obtain ⟨hek, hhek⟩ := wf.hek_of_first hi
      have hhash : hek.hash = k.hash := by
        have : hek.id = k := by simpa [HE.id, hhek] using hid
        rw [← this]
        rfl
      have hhome : hv.homeOf oa i = some (bucketOf k.hash oa.buckets) := by
        simp [HV.homeOf, hi, hhek, hhash]
      rw [entries_indexed hs] at hkey
      obtain ⟨pos, hfind, hrefers⟩ := oaFindIndexed_some hx.sized (wf.homesIn hs) hx.index hhome
        hkey (fun j hj hjk => by
          obtain ⟨he', -, hjf, -⟩ := homeOf_ne_none hj
          rw [← entries_indexed hs] at hjk
          exact huniq j he' hjf ((entryHasKey_of_first hjf).mp hjk))
      refine ⟨i, he, some pos, hi, hid, by simp [oaFind, hs, hfind], fun oa' hoa' => ?_⟩
      obtain rfl : oa = oa' := by simpa using hoa'
      exact ⟨pos, rfl, hrefers⟩
  · right
    have hno : ∀ he ∈ hv.live, he.id ≠ some k := fun he hm hid => hex ⟨he, hm, hid⟩
    cases hs : hv.storage with
    | unallocated n =>
      exact ⟨none, hno, by simp [oaFind, hs], by simp [SavedSlot]⟩
    | linear cap es =>
      refine ⟨none, hno, ?_, by simp [SavedSlot]⟩
      simp only [oaFind, hs, Option.some.injEq, FindResult.mk.injEq, and_true]
      rw [List.find?_eq_none]
      intro j hj hkj
      cases hjf : hv.hvEntryFirst j with
      | none =>
        rw [hvEntryFirst_linear hs] at hjf
        simp [entryHasKey, hjf] at hkj
      | some he' =>
        rw [← entries_linear hs] at hkj
        exact hno he' (mem_live.mpr ⟨j, hjf⟩) ((entryHasKey_of_first hjf).mp hkj)
    | indexed oa =>
      have hx := wf.indexed hs
      obtain ⟨slot, hfind, hslot⟩ := oaFindIndexed_none (k := k) hx.sized (wf.homesIn hs) hx.index
        (wf.room hs) (fun j hj => by
          obtain ⟨he', -, hjf, -⟩ := homeOf_ne_none hj
          by_contra hcon
          have hkj : entryHasKey hv.entries k j = true := by
            rw [entries_indexed hs]
            simpa using hcon
          exact hno he' (mem_live.mpr ⟨j, hjf⟩) ((entryHasKey_of_first hjf).mp hkj))
      refine ⟨slot, hno, by simp [oaFind, hs, hfind], fun pos hpos => ?_⟩
      obtain ⟨hb, hfree⟩ := hslot pos hpos
      exact ⟨oa, hs, hb, hfree⟩

end XPerl.Hash
