import XPerl.Hash.Key
import XPerl.Hash.Invariant

/-! Fetch, exists, store and lvalue fetch. -/

namespace XPerl.Hash

open XPerl.Framework.Exec

variable {V : Type} [DecidableEq V]

/-- What hv_common is asked to do. An lvalue fetch carries the scalar to create, and whether the
entry stays empty. -/
inductive Action (V : Type) where
  | fetch
  | exists
  | store (val : HeVal V)
  | lvalue (emptyHe : Bool) (sv : V)
  deriving DecidableEq, Repr

def Action.mutates : Action V → Bool
  | .store _ => true
  | .lvalue _ _ => true
  | _ => false

namespace HV

variable (hv : HV V)

def arrayNull : Bool :=
  match hv.storage with
  | .unallocated _ => true
  | .linear cap _ => cap == 0
  | .indexed _ => false

def isLinear : Bool :=
  match hv.storage with
  | .linear _ _ => true
  | _ => false

def bucketCount : Nat :=
  match hv.storage with
  | .unallocated n => n
  | .linear cap _ => if cap = 0 then 1 else cap
  | .indexed oa => oa.buckets

def setVal (i : Nat) (val : HeVal V) : HV V := hv.modifyEntry i fun he => { he with val := val }

def setHek (i : Nat) (hek : HEK) : HV V :=
  hv.modifyEntry i fun he => { he with hek := some hek }

/-- Fill the entry made by S_linear_new_entry or S_oa_new_entry. -/
def putNew (i : Nat) (he : HE V) : HV V :=
  hv.withEntries (if i < hv.entries.length then hv.entries.set i he else hv.entries ++ [he])

end HV

def allocateArray (cfg : Config) : HvM V Unit := do
  let hv ← get
  if hv.arrayNull then
    if cfg.linearEnabled then
      set ({ hv with storage := .linear 0 [] } : HV V)
    else oaIndexResize cfg.build hv.bucketCount
  else pure ()

def shareHekFlags (q : Query) : HvM V HEK := do
  throwIf (q.octets.length > i32Max) .keyLengthOutOfRange
  let hv ← get
  set ({ hv with nextRef := hv.nextRef + 1 } : HV V)
  pure ⟨q.hash, q.octets, q.utf8, q.wasUtf8, false, hv.nextRef⟩

def saveHekFlags (q : Query) : HvM V HEK := do
  let hv ← get
  set ({ hv with nextRef := hv.nextRef + 1 } : HV V)
  pure ⟨q.hash, q.octets, q.utf8, q.wasUtf8, true, hv.nextRef⟩

def noteKFlags (q : Query) : HvM V Unit :=
  modify fun hv => { hv with hasKFlags := hv.hasKFlags || (q.utf8 || q.wasUtf8) }

def adoptWasUtf8 (q : Query) (i : Nat) : HvM V Unit := do
  let hv ← get
  match hv.entries[i]?.bind HE.hek with
  | none => throw .undefined
  | some hek =>
    if hek.wasUtf8 ≠ q.wasUtf8 then
      if hek.notShared then
        modify fun hv => hv.setHek i { hek with wasUtf8 := !hek.wasUtf8 }
      else
        let newHek ← shareHekFlags q
        modify fun hv => (hv.setHek i newHek).freeKey hek
      noteKFlags q
    else pure ()

def entryAt (i : Nat) : HvM V (HE V) := do
  let hv ← get
  match hv.entries[i]? with
  | none => throw .undefined
  | some he => pure he

def newEntry (cfg : Config) (slot : Option Nat) : HvM V (Nat × Option Nat) := do
  let hv ← get
  match hv.storage with
  | .linear _ _ => (fun i => (i, none)) <$> linearNewEntry cfg
  | _ => oaNewEntry cfg.build slot

def newHek (q : Query) : HvM V HEK := do
  let hv ← get
  if hv.shareKeys then shareHekFlags q else saveHekFlags q

def indexNewEntry (build : Build) (i : Nat) (hash : UInt32) (slot : Option Nat) : HvM V Unit := do
  let hv ← get
  match hv.storage with
  | .indexed _ =>
    match build, slot with
    | .oa, some pos => onOA (oaPutSlot pos i)
    | _, _ => onOA (oaIndexInsert build i hash)
  | _ => pure ()

def countNewEntry (q : Query) (val : HeVal V) : HvM V Unit := do
  modify fun hv => ({ hv with keys := hv.keys + 1 }).modifyAux fun a =>
    { a with iterInserted := a.iterInserted || decide (a.riter ≠ -1) || a.iterActive }
  modify fun hv => if val.isPlaceholder then hv.addPlaceholders 1 else hv
  noteKFlags q

/-- The store part of hv_common: a new entry for a key that is not in the hash. -/
def insertEntry (cfg : Config) (q : Query) (val : HeVal V) (slot : Option Nat) :
    HvM V (Option (HE V)) := do
  allocateArray cfg
  let (i, slot) ← newEntry cfg slot
  let hek ← newHek q
  modify fun hv => hv.putNew i ⟨some hek, val⟩
  indexNewEntry cfg.build i q.hash slot
  countNewEntry q val
  pure (some ⟨some hek, val⟩)

/-- The tail of hv_common after a lookup that found nothing, or a placeholder. -/
def hvNotFound (cfg : Config) (again : KeyArg → HeVal V → HvM V (Option (HE V))) (k : KeyArg)
    (q : Query) (action : Action V) (found : Bool) (slot : Option Nat) :
    HvM V (Option (HE V)) := do
  let hv ← get
  throwIf (found = false ∧ hv.readonly = true ∧ action ≠ .exists)
    (.keyAccessDisallowed q.octets q.utf8)
  match action with
  | .fetch => pure none
  | .exists => pure none
  | .store val =>
    throwIf (hv.keys ≥ hvMaxKeys) .hashCapacityExceeded
    insertEntry cfg q val slot
  | .lvalue emptyHe sv =>
    throwIf (hv.keys ≥ hvMaxKeys) .hashCapacityExceeded
    let val := if emptyHe then HeVal.null else .sv sv
    if hv.svMagical then again (q.again k.key) val
    else insertEntry cfg q val slot

def noDestructor : HeVal V → HvM V Unit := fun _ => pure ()

/-- Overwrite an ordinary value. The old value's destructor may change the hash, so the
entry is looked up again. -/
def storeOver (cfg : Config) (release : HeVal V → HvM V Unit) (q : Query) (i : Nat)
    (val : HeVal V) : HvM V (Option (HE V)) := do
  let he ← entryAt i
  modify fun hv => hv.setVal i val
  release he.val
  let hv ← get
  match oaFind cfg.build hv q.id with
  | none => throw .undefined
  | some r =>
    match r.entry with
    | none => pure none
    | some j =>
      let he ← entryAt j
      pure (if he.val = val then some he else none)

/-- The tail of hv_common for an entry found at position `i`. -/
def hvFound (cfg : Config) (release : HeVal V → HvM V Unit)
    (again : KeyArg → HeVal V → HvM V (Option (HE V))) (k : KeyArg) (q : Query)
    (action : Action V) (i : Nat) : HvM V (Option (HE V)) := do
  if action.mutates then adoptWasUtf8 q i
  let he ← entryAt i
  let hv ← get
  match action with
  | .lvalue emptyHe sv =>
    if he.val.isPlaceholder then
      if hv.svMagical then hvNotFound cfg again k q (.lvalue emptyHe sv) true none
      else
        modify fun hv => (hv.addPlaceholders (-1)).setVal i (.sv sv)
        some <$> entryAt i
    else pure (some he)
  | .store val =>
    if he.val.isPlaceholder then
      modify fun hv =>
        (if val.isPlaceholder then hv else hv.addPlaceholders (-1)).setVal i val
      some <$> entryAt i
    else storeOver cfg release q i val
  | action =>
    if he.val.isPlaceholder then hvNotFound cfg again k q action true none
    else pure (some he)

def hvLookup (cfg : Config) (release : HeVal V → HvM V Unit)
    (again : KeyArg → HeVal V → HvM V (Option (HE V))) (k : KeyArg) (q : Query)
    (action : Action V) : HvM V (Option (HE V)) := do
  let hv ← get
  match oaFind cfg.build hv q.id with
  | none => throw .undefined
  | some r =>
    match r.entry with
    | some i => hvFound cfg release again k q action i
    | none => hvNotFound cfg again k q action false r.slot

def plainFetch (hv : HV V) (k : KeyArg) (action : Action V) : Bool :=
  match action, k.key with
  | .fetch, .shared _ => !hv.svMagical
  | .fetch, .sv _ utf8 => !hv.svMagical && !utf8
  | _, _ => false

def linearByteFind (es : List (HE V)) (octets : Octets) : Option Nat :=
  (List.range es.length).find? fun i =>
    (es[i]?.bind HE.hek).any fun hek => decide (hek.key = octets) && !hek.utf8

/-- hv_common with the recursive store as a parameter. -/
def hvCommonWith (cfg : Config) (release : HeVal V → HvM V Unit)
    (again : KeyArg → HeVal V → HvM V (Option (HE V))) (k : KeyArg) (action : Action V) :
    HvM V (Option (HE V)) := do
  let hv ← get
  if plainFetch hv k action then
    if hv.arrayNull then pure none
    else
      let q := k.raw.withHash cfg k
      match k.key, hv.storage with
      | .sv octets _, .linear _ es =>
        match linearByteFind es octets with
        | some i => hvFound cfg release again k q action i
        | none => hvNotFound cfg again k q action false none
      | _, _ => hvLookup cfg release again k q action
  else if hv.arrayNull && !action.mutates then pure none
  else
    allocateArray cfg
    hvLookup cfg release again k (commonQuery cfg k) action

/-- hv_common for a store. A store never recurses. -/
def hvStore (cfg : Config) (release : HeVal V → HvM V Unit) (k : KeyArg) (val : HeVal V) :
    HvM V (Option (HE V)) :=
  hvCommonWith cfg release (fun _ _ => throw .undefined) k (.store val)

/-- hv_common on an untied hash. The result is the entry, or NULL. -/
def hvCommon (cfg : Config) (release : HeVal V → HvM V Unit) (k : KeyArg) (action : Action V) :
    HvM V (Option (HE V)) :=
  hvCommonWith cfg release (hvStore cfg release) k action

end XPerl.Hash

/-! Iteration. -/

namespace XPerl.Hash

open XPerl.Framework.Exec

variable {V : Type}

/-- hv_auxinit for a hash without the auxiliary structure -/
def hvAuxinit (cfg : Config) : HvM V Unit := do
  allocateArray cfg
  modify fun hv => { hv with aux := some ⟨-1, none, false, false⟩ }

def releaseLazy (hv : HV V) : HV V :=
  match hv.eiter with
  | none => hv
  | some e => freeLazy { hv with lazydel := false, aux := hv.aux.map fun a => { a with eiter := none } } e

def hvIterinit (cfg : Config) : HvM V Nat := do
  let hv ← get
  if hv.aux.isSome then
    if hv.lazydel then modify releaseLazy
    modify fun hv => hv.modifyAux fun a =>
      { a with riter := -1, eiter := none, iterInserted := false, iterActive := false }
  else hvAuxinit cfg
  let hv ← get
  pure hv.keys

def wanted (wantPlaceholders : Bool) (he : HE V) : Bool := wantPlaceholders || !he.val.isPlaceholder

def nextPosition (hv : HV V) (wantPlaceholders : Bool) : Option Nat :=
  (List.range hv.hvEntryLimit).find? fun i =>
    decide ((hv.riter + 1).toNat ≤ i) &&
      (hv.hvEntryFirst i).any (wanted wantPlaceholders)

def iterReset : HvM V Unit :=
  modify fun hv => hv.modifyAux fun a => { a with riter := -1, eiter := none, iterActive := false }

/-- Search of hv_iternext_flags for the next entry. -/
def iterAdvance (wantPlaceholders : Bool) : HvM V (Option (HE V)) := do
  let hv ← get
  match nextPosition hv wantPlaceholders with
  | some i =>
    set (hv.modifyAux fun a =>
      { a with riter := i, eiter := some (.slot i), iterActive := hv.isLinear })
    pure hv.entries[i]?
  | none =>
    iterReset
    pure none

/-- Iterator and storage made ready for hv_iternext_flags. -/
def iterPrepare (cfg : Config) : HvM V Unit := do
  let hv ← get
  if hv.aux.isSome then allocateArray cfg
  else
    let _ ← hvIterinit cfg
    pure ()

def iterRestarts (hv : HV V) : Bool :=
  hv.aux.any fun a => a.iterInserted && (decide (a.riter ≠ -1) || a.iterActive)

/-- hv_iternext_flags, with the second attempt after a release as a parameter. -/
def hvIternextWith (cfg : Config) (again : HvM V (Option (HE V))) (wantPlaceholders : Bool) :
    HvM V (Option (HE V)) := do
  iterPrepare cfg
  let hv ← get
  if hv.arrayNull = true ∧ hv.keys = 0 then
    iterReset
    pure none
  else
    let pending := hv.eiter.isSome && hv.lazydel
    modify fun hv => hv.modifyAux fun a => { a with iterInserted := false }
    if iterRestarts hv then
      if pending then modify releaseLazy
      iterReset
      pure none
    else if pending then
      modify releaseLazy
      again
    else iterAdvance wantPlaceholders

def hvIternextFlags (cfg : Config) (wantPlaceholders : Bool) : HvM V (Option (HE V)) :=
  hvIternextWith cfg (hvIternextWith cfg (throw .undefined) wantPlaceholders) wantPlaceholders

/-! Deletion, clearing, and the placeholder sweep. -/

variable [DecidableEq V]

def HE.keySv (he : HE V) : Octets × Bool :=
  match he.hek with
  | none => ([], false)
  | some hek => (hek.key, hek.utf8)

def oaDetach (hv : HV V) (i : Nat) : HV V :=
  if hv.isCurrent i then { hv with lazydel := true } else oaFreeDeleted hv i

def unlinkEntry (build : Build) (i : Nat) (hek : HEK) (slot : Option Nat) : HvM V Unit := do
  modify fun hv => hv.setVal i .null
  let hv ← get
  match hv.storage with
  | .linear _ _ => modify fun hv => (linearRemoveAt hv i).freeKey hek
  | _ =>
    match slot with
    | some pos => onOA (oaIndexDelete build pos)
    | none => pure ()
    modify fun hv => { hv with keys := hv.keys - 1 }
    modify fun hv => oaDetach hv i
  modify fun hv => { hv with hasKFlags := hv.hasKFlags && decide (hv.keys ≠ 0) }

/-- hv_delete_common on an untied hash. The result is the deleted value, or NULL. -/
def hvDelete (cfg : Config) (svReadonly : V → Bool) (discard : Bool) (k : KeyArg) :
    HvM V (Option V) := do
  let hv ← get
  if hv.keys = 0 then pure none
  else
    let q := deleteQuery cfg k
    match oaFind cfg.build hv q.id with
    | none => throw .undefined
    | some ⟨none, _⟩ =>
      throwIf (hv.readonly = true) (.keyDeletionDisallowed q.octets q.utf8)
      pure none
    | some ⟨some i, slot⟩ =>
      let he ← entryAt i
      match he.hek, he.val with
      | none, _ => throw .undefined
      -- a placeholder has already been deleted
      | some _, .placeholder => pure none
      | some hek, val =>
        throwIf (hv.readonly = true ∧ val.svReadonly svReadonly = true)
          (.readOnlyKeyDeletion q.octets q.utf8)
        if hv.readonly then modify fun hv => (hv.setVal i .placeholder).addPlaceholders 1
        else unlinkEntry cfg.build i hek slot
        pure (if discard then none else val.toSv)

/-- Reset of the iterator in hfree_next_entry: a deleted entry under it is released. -/
def resetForFree (hv : HV V) : HV V :=
  match hv.eiter with
  | none => hv
  | some e =>
    let hv' :=
      if hv.lazydel then
        freeLazy { hv with lazydel := false, aux := hv.aux.map fun a => { a with eiter := none } } e
      else hv
    hv'.modifyAux fun a => { a with riter := -1, eiter := none, iterActive := false }

def foundByKey (build : Build) (hv : HV V) (i : Nat) : Bool :=
  (hv.hvEntryFirst i).any fun he => he.hek.any fun hek =>
    ((oaFind build hv hek.id).bind FindResult.entry) == some i

/-- hfree_next_entry: free the next entry from `index` on. The result is its value and
the index to go on from. -/
def hfreeNextEntry (cfg : Config) (index : Nat) : HvM V (HeVal V × Nat) := do
  modify resetForFree
  let hv ← get
  if hv.keys = 0 then pure (.null, index)
  else
    match hv.storage with
    | .linear _ es =>
      match es[index]? with
      | none => pure (.null, 0)
      | some he =>
        set (match he.hek with
          | none => linearRemoveAt hv index
          | some hek => (linearRemoveAt hv index).freeKey hek)
        pure (he.val, index)
    | .unallocated _ => throw .undefined
    | .indexed oa =>
      match (List.range oa.used).find? fun i => decide (index ≤ i) && foundByKey cfg.build hv i with
      | none => pure (.null, 0)
      | some i =>
        let he ← entryAt i
        match he.hek.bind fun hek => (oaFind cfg.build hv hek.id).bind FindResult.slot with
        | none => throw .undefined
        | some pos =>
          onOA (oaIndexDelete cfg.build pos)
          modify fun hv => oaFreeDeleted { hv with keys := hv.keys - 1 } i
          pure (he.val, i + 1)

def hvFreeEntries (cfg : Config) : Nat → Nat → HvM V Unit
  | 0, _ => throw .undefined
  | fuel + 1, index => do
    let (sv, next) ← hfreeNextEntry cfg index
    let hv ← get
    if sv ≠ .null ∨ hv.keys ≠ 0 then hvFreeEntries cfg fuel next else pure ()

def clearToPlaceholder (svReadonly : V → Bool) (i : Nat) : HvM V Unit := do
  let hv ← get
  match hv.hvEntryFirst i with
  | none => pure ()
  | some he =>
    if he.val.isPlaceholder then pure ()
    else
      throwIf (he.val.svReadonly svReadonly = true)
        (.readOnlyKeyDeletion he.keySv.1 he.keySv.2)
      modify fun hv => (hv.setVal i .placeholder).addPlaceholders 1

def hvClear (cfg : Config) (svReadonly : V → Bool) : HvM V Unit := do
  let hv ← get
  if hv.readonly = true ∧ hv.keys ≠ 0 then
    (List.range hv.hvEntryLimit).forM (clearToPlaceholder svReadonly)
  else
    hvFreeEntries cfg (hv.keys + 2) 0
    modify fun hv => { hv.hvPlaceholdersSet 0 with hasKFlags := false }
  modify fun hv => hv.modifyAux fun a => { a with eiter := none }

def toU32 (n : Int) : Nat := (n % 2 ^ 32).toNat

def clearPlaceholdersLinear : Nat → Nat → Nat → HvM V Unit
  | 0, _, _ => throw .undefined
  | fuel + 1, toFind, i => do
    let hv ← get
    if toFind = 0 ∨ hv.keys ≤ i then pure ()
    else
      let he ← entryAt i
      if he.val.isPlaceholder then
        modify fun hv =>
          (he.hek.elim (linearRemoveAt hv i) (linearRemoveAt hv i).freeKey).addPlaceholders (-1)
        let hv ← get
        clearPlaceholdersLinear fuel (toU32 hv.hvPlaceholdersGet) 0
      else clearPlaceholdersLinear fuel toFind (i + 1)

def oaIndexDeleteUnlessDeleted (build : Build) (pos : Nat) : OaM V Unit := do
  let oa ← get
  if oa.indexGet build pos = oaDeleted then pure () else oaIndexDelete build pos

def clearPlaceholderAt (cfg : Config) (toFind i : Nat) : HvM V Nat := do
  let hv ← get
  match hv.hvEntryFirst i with
  | none => pure toFind
  | some he =>
    match he.hek with
    | none => pure toFind
    | some hek =>
      if toFind = 0 ∨ he.val.isPlaceholder = false then pure toFind
      else
        match oaFind cfg.build hv hek.id with
        | none => throw .undefined
        | some r =>
          match r.slot with
          | some pos => onOA (oaIndexDeleteUnlessDeleted cfg.build pos)
          | none => pure ()
          modify fun hv => ({ hv with keys := hv.keys - 1 }).addPlaceholders (-1)
          modify fun hv => { hv with hasKFlags := hv.hasKFlags && decide (hv.keys ≠ 0) }
          modify fun hv => oaDetach hv i
          pure (toFind - 1)

def clearPlaceholdersIndexed (cfg : Config) : List Nat → Nat → HvM V Unit
  | [], _ => pure ()
  | i :: is, toFind => do
    let toFind ← clearPlaceholderAt cfg toFind i
    clearPlaceholdersIndexed cfg is toFind

def hvClearPlaceholders (cfg : Config) : HvM V Unit := do
  let hv ← get
  let items := toU32 hv.hvPlaceholdersGet
  if items = 0 then pure ()
  else
    match hv.storage with
    | .linear _ _ =>
      clearPlaceholdersLinear ((hv.keys + 1) * (hv.keys + 1) + 1) items 0
      modify fun hv => hv.hvPlaceholdersSet 0
      modify fun hv => { hv with hasKFlags := hv.hasKFlags && decide (hv.keys ≠ 0) }
    | .unallocated _ => modify fun hv => hv.hvPlaceholdersSet 0
    | .indexed oa => clearPlaceholdersIndexed cfg (List.range oa.used) items

end XPerl.Hash
