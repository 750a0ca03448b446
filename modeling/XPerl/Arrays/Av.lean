import XPerl.Framework.Exec
import XPerl.Framework.Slots

/-! The arrays of `av.c`: what they represent, and how `av_extend` makes room. -/

namespace XPerl.Arrays

open XPerl.Framework.Exec XPerl.Framework.Slots Block

variable {α : Type}

/-- An untied array that owns its elements. A slot holds a pointer to an element, or NULL. -/
structure Av (α : Type) where
  /-- What `AvALLOC` points to. -/
  alloc : Option (Block (Option α))
  /-- `AvARRAY - AvALLOC`. -/
  array : Int
  max : Int
  fill : Int

def newAv (α : Type) : Av α := ⟨none, 0, -1, -1⟩

/-- How a call may fail: the exceptions of the source, or what must never happen. -/
inductive Stop where
  | arrayExtendIndexInvalid (key : Int)
  | arrayExtendOverflow
  | memoryWrap
  | overflow
  | nullPointer
  | outOfBounds
  | uninitialised
  deriving DecidableEq, Repr

abbrev AvM (α : Type) := EStateM Stop (Av α)

/-- `SSize_t_MAX`, and `MEM_SIZE_MAX / sizeof(SV *)`. -/
def ssizeMax : Int := 0x7fffffffffffffff

def maxSlots : Int := 0x1fffffffffffffff

/-- A value of type `SSize_t`; what does not fit overflows. -/
def ssize (n : Int) : AvM α Int := do
  throwIf (¬ (-ssizeMax - 1 ≤ n ∧ n ≤ ssizeMax)) .overflow
  pure n

def setMax (max : Int) : AvM α Unit := modify fun av => { av with max := max }

def setFill (fill : Int) : AvM α Unit := modify fun av => { av with fill := fill }

def setArray (array : Int) : AvM α Unit := modify fun av => { av with array := array }

def setAlloc (block : Block (Option α)) : AvM α Unit :=
  modify fun av => { av with alloc := some block }

def block : AvM α (Block (Option α)) := do
  match (← get).alloc with
  | none => throw .nullPointer
  | some b => pure b

def readSlot (place : Int) : AvM α (Option α) := do
  let b ← block
  throwIf (¬ (0 ≤ place ∧ place < b.size)) .outOfBounds
  match b.slot place with
  | .garbage => throw .uninitialised
  | .held x => pure x

def writeSlot (place : Int) (x : Option α) : AvM α Unit := do
  let b ← block
  throwIf (¬ (0 ≤ place ∧ place < b.size)) .outOfBounds
  setAlloc (b.write place x)

def zeroSlots (first count : Int) : AvM α Unit := do
  let b ← block
  throwIf (¬ (0 ≤ first ∧ 0 ≤ count ∧ first + count ≤ b.size)) .outOfBounds
  setAlloc (b.fill first count none)

def moveSlots (source target count : Int) : AvM α Unit := do
  let b ← block
  throwIf (¬ (0 ≤ source ∧ 0 ≤ target ∧ 0 ≤ count ∧ source + count ≤ b.size ∧
    target + count ≤ b.size)) .outOfBounds
  setAlloc (b.move source target count)

/-- `Newx` of slots, which checks that the size in bytes does not wrap. -/
def newx (count : Int) : AvM α Unit := do
  throwIf (count > maxSlots) .memoryWrap
  setAlloc (Block.fresh count)

def renew (count : Int) : AvM α Unit := do
  throwIf (count > maxSlots) .memoryWrap
  let b ← block
  setAlloc (b.grown count)

def smallGrowth (key max growth : Int) : AvM α Int := do
  if growth < 5 then
    let gap ← ssize (key - max)
    if gap < 8 then ssize (max + 8) else pure key
  else pure key

def resize (key aryOffset toNull : Int) : AvM α Unit := do
  let max := (← get).max
  let growth := max.tdiv 5
  let key ← smallGrowth key max growth
  let newmax := if key > ssizeMax - growth then ssizeMax else key + growth
  throwIf (newmax > maxSlots) .arrayExtendOverflow
  renew (newmax + 1)
  let more ← ssize (newmax - max)
  let toNull ← ssize (toNull + more)
  setMax newmax
  zeroSlots aryOffset toNull
  setArray 0

def extendShifted (key : Int) : AvM α Unit := do
  let av ← get
  let toNull := av.array
  let max ← ssize (av.max + toNull)
  setMax max
  moveSlots av.array 0 (av.fill + 1)
  if key > max then
    let toNull ← ssize (max - av.fill)
    resize key (av.fill + 1) toNull
  else
    zeroSlots (av.fill + 1) toNull
    setArray 0

/-- There is no block yet; `PERL_ARRAY_NEW_MIN_KEY` is 3. -/
def extendNew (key : Int) : AvM α Unit := do
  let max := if key < 3 then 3 else key
  setMax max
  throwIf (max > maxSlots) .arrayExtendOverflow
  newx (max + 1)
  zeroSlots 0 (max + 1)
  setArray 0

/-- `av_extend_guts`, and so `av_extend` of an untied array. -/
def avExtend (key : Int) : AvM α Unit := do
  throwIf (key < -1) (.arrayExtendIndexInvalid key)
  let av ← get
  if key > av.max then
    if av.array ≠ 0 then extendShifted key
    else if av.alloc.isSome then resize key (av.max + 1) 0
    else extendNew key
  else pure ()

def adjustKey (key : Int) : AvM α Int := do
  if key < 0 then
    let fill := (← get).fill
    ssize (key + (fill + 1))
  else pure key

/-- `AvFILLp = key`, or the release of the element that is replaced. -/
def takePlace (key : Int) : AvM α Unit := do
  let av ← get
  if av.fill < key then setFill key
  else do
    let _ ← readSlot (av.array + key)
    pure ()

def reach (key : Int) : AvM α Unit := do
  if key > (← get).max then avExtend key else pure ()

/-- `av_store`; `false` is NULL, the answer for an index in front of the array. -/
def avStore (key : Int) (val : Option α) : AvM α Bool := do
  let key ← adjustKey key
  if key < 0 then pure false
  else
    reach key
    takePlace key
    writeSlot ((← get).array + key) val
    pure true

/-- What `av_fetch` does for an element that does not exist. -/
def fetchMissing (key : Int) (lval : Option α) : AvM α (Option α) :=
  match lval with
  | none => pure none
  | some sv => do
    let _ ← avStore key (some sv)
    pure (some sv)

/-- `av_fetch`; `lval` is the new SV to store, where one is wanted. -/
def avFetch (key : Int) (lval : Option α) : AvM α (Option α) := do
  let neg := key < 0
  let key ← adjustKey key
  let av ← get
  if ¬ (0 ≤ key ∧ key < av.fill + 1) then
    fetchMissing key (if neg then none else lval)
  else
    match ← readSlot (av.array + key) with
    | some x => pure (some x)
    | none => fetchMissing key lval

def avPush (val : Option α) : AvM α Unit := do
  let key ← ssize ((← get).fill + 1)
  let _ ← avStore key val
  pure ()

def avPop : AvM α (Option α) := do
  let av ← get
  if av.fill < 0 then pure none
  else
    let retval ← readSlot (av.array + av.fill)
    writeSlot (av.array + av.fill) none
    setFill (av.fill - 1)
    pure retval

/-- The first slot becomes NULL, except with `PERL_RC_STACK` (`rcStack`). -/
def nullFirst (rcStack : Bool) (array : Int) : AvM α Unit :=
  if rcStack then pure () else writeSlot array none

def avShift (rcStack : Bool) : AvM α (Option α) := do
  let av ← get
  if av.fill < 0 then pure none
  else
    let retval ← readSlot av.array
    nullFirst rcStack av.array
    setArray (av.array + 1)
    setMax (av.max - 1)
    setFill (av.fill - 1)
    pure retval

/-- `Zero`, where shifted slots keep what they held. -/
def zeroShifted (rcStack : Bool) (first count : Int) : AvM α Unit :=
  if rcStack then zeroSlots first count else pure ()

/-- Slots in front of the array are taken back, up to `num`; the answer is what is left of `num`. -/
def takeBack (rcStack : Bool) (num : Int) : AvM α Int := do
  let av ← get
  if av.array = 0 then pure num
  else
    let i := if av.array > num then num else av.array
    setMax (av.max + i)
    setFill (av.fill + i)
    setArray (av.array - i)
    zeroShifted rcStack (av.array - i) i
    pure (num - i)

def nullDown (array : Int) : Nat → AvM α Unit
  | 0 => pure ()
  | num + 1 => do
    writeSlot (array + num) none
    nullDown array num

/-- The part of `av_unshift` that makes new slots, and as many more as the array has elements. -/
def makeRoom (num : Int) : AvM α Unit := do
  let i := (← get).fill
  let slide := if i > 0 then i else 0
  let num ← ssize (num + slide)
  let key ← ssize (i + num)
  avExtend key
  setFill (i + num)
  let ary := (← get).array
  moveSlots ary (ary + num) (i + 1)
  nullDown ary num.toNat
  let av ← get
  setMax (av.max - slide)
  setFill (av.fill - slide)
  setArray (av.array + slide)

def avUnshift (rcStack : Bool) (num : Int) : AvM α Unit := do
  if num ≤ 0 then pure ()
  else
    let num ← takeBack rcStack num
    if num ≠ 0 then makeRoom num else pure ()

/-- Elements are released from `key` down, `count` of them, and their slots become NULL. -/
def releaseDown (array : Int) : Nat → Int → AvM α Unit
  | 0, _ => pure ()
  | count + 1, key => do
    let _ ← readSlot (array + key)
    writeSlot (array + key) none
    releaseDown array count (key - 1)

def avFill (fill : Int) : AvM α Unit := do
  let fill := if fill < 0 then -1 else fill
  let av ← get
  if fill ≤ av.max then
    releaseDown av.array (av.fill - fill).toNat av.fill
    setFill fill
  else
    let _ ← avStore fill none
    pure ()

/-- `do { AvFILLp(av)--; } while (--key >= 0 && !AvARRAY(av)[key]);` -/
def dropHoles : Nat → AvM α Unit
  | 0 => do setFill ((← get).fill - 1)
  | key + 1 => do
    setFill ((← get).fill - 1)
    match ← readSlot ((← get).array + key) with
    | none => dropHoles key
    | some _ => pure ()

def trimEnd (key fill : Int) : AvM α Unit :=
  if key = fill then dropHoles key.toNat else pure ()

def avDelete (key : Int) : AvM α (Option α) := do
  let key ← adjustKey key
  let av ← get
  if key < 0 then pure none
  else if key > av.fill then pure none
  else
    let sv ← readSlot (av.array + key)
    writeSlot (av.array + key) none
    trimEnd key av.fill
    pure sv

def avRemoveOffset (rcStack : Bool) : AvM α Unit := do
  let av ← get
  if av.array ≠ 0 then
    setArray 0
    setMax (av.max + av.array)
    zeroShifted rcStack 0 av.array
  else pure ()

def avClear (rcStack : Bool) : AvM α Unit := do
  let av ← get
  if av.max < 0 then pure ()
  else
    releaseDown av.array (av.fill + 1).toNat av.fill
    setFill (-1)
    avRemoveOffset rcStack

variable {β : Type}

def Av.allocated (av : Av α) : Int :=
  match av.alloc with
  | none => 0
  | some b => b.size

def Av.slot (av : Av α) (place : Int) : Slot (Option α) :=
  match av.alloc with
  | none => .garbage
  | some b => b.slot place

/-- The array stands for a sequence with holes. -/
structure Represents (rcStack : Bool) (av : Av α) (l : List (Option α)) : Prop where
  start : 0 ≤ av.array
  size : av.allocated = av.array + av.max + 1
  top : av.fill + 1 = l.length
  room : av.fill ≤ av.max
  items : ∀ (i : Nat) x, l[i]? = some x → av.slot (av.array + i) = .held x
  above : ∀ i, av.fill < i → i ≤ av.max → av.slot (av.array + i) = .held none
  shifted : rcStack = false → ∀ i, 0 ≤ i → i < av.array → av.slot i = .held none
  limit : av.allocated ≤ maxSlots
  block : ∀ b, av.alloc = some b → 0 < b.size

section Steps

variable {av : Av α} {Q : β → Av α → Prop} {E : Stop → Av α → Prop}

theorem wp_ssize {Q : Int → Av α → Prop} {n : Int} (h : -ssizeMax - 1 ≤ n ∧ n ≤ ssizeMax) :
    wp (ssize n) av Q E ↔ Q n av := by
  rw [ssize, wp_bind, wp_throwIf]
  simp [h]

@[simp] theorem wp_setMax {Q : Unit → Av α → Prop} (max : Int) :
    wp (setMax max) av Q E ↔ Q () { av with max := max } := Iff.rfl

@[simp] theorem wp_setFill {Q : Unit → Av α → Prop} (fill : Int) :
    wp (setFill fill) av Q E ↔ Q () { av with fill := fill } := Iff.rfl

@[simp] theorem wp_setArray {Q : Unit → Av α → Prop} (array : Int) :
    wp (setArray array) av Q E ↔ Q () { av with array := array } := Iff.rfl

@[simp] theorem wp_setAlloc {Q : Unit → Av α → Prop} (b : Block (Option α)) :
    wp (setAlloc b) av Q E ↔ Q () { av with alloc := some b } := Iff.rfl

variable {b : Block (Option α)}

theorem wp_block {Q : Block (Option α) → Av α → Prop}
    (h : av.alloc = some b) : wp block av Q E ↔ Q b av := by
  rw [block, wp_bind, wp_get, h]
  exact wp_pure b

theorem wp_readSlot {Q : Option α → Av α → Prop}
    (halloc : av.alloc = some b) {place : Int} {x : Option α} (hslot : b.slot place = .held x)
    (h : 0 ≤ place) (h' : place < b.size) : wp (readSlot place) av Q E ↔ Q x av := by
  rw [readSlot, wp_bind, wp_block halloc, wp_bind, wp_throwIf, hslot]
  simp [h, h']

theorem wp_writeSlot {Q : Unit → Av α → Prop} (halloc : av.alloc = some b)
    {place : Int} (h : 0 ≤ place) (h' : place < b.size) (x : Option α) :
    wp (writeSlot place x) av Q E ↔ Q () { av with alloc := some (b.write place x) } := by
  rw [writeSlot, wp_bind, wp_block halloc, wp_bind, wp_throwIf, wp_setAlloc]
  simp [h, h']

theorem wp_zeroSlots {Q : Unit → Av α → Prop} (halloc : av.alloc = some b)
    {first count : Int} (h : 0 ≤ first) (h' : 0 ≤ count) (hend : first + count ≤ b.size) :
    wp (zeroSlots first count) av Q E ↔ Q () { av with alloc := some (b.fill first count none) } := by
  rw [zeroSlots, wp_bind, wp_block halloc, wp_bind, wp_throwIf, wp_setAlloc]
  simp [h, h', hend]

theorem wp_moveSlots {Q : Unit → Av α → Prop} (halloc : av.alloc = some b)
    {source target count : Int} (hs : 0 ≤ source) (ht : 0 ≤ target) (hc : 0 ≤ count)
    (hs' : source + count ≤ b.size) (ht' : target + count ≤ b.size) :
    wp (moveSlots source target count) av Q E ↔
      Q () { av with alloc := some (b.move source target count) } := by
  rw [moveSlots, wp_bind, wp_block halloc, wp_bind, wp_throwIf, wp_setAlloc]
  simp [hs, ht, hc, hs', ht']

theorem wp_renew {Q : Unit → Av α → Prop} (halloc : av.alloc = some b)
    (count : Int) : wp (renew count) av Q E ↔
      (count > maxSlots → E .memoryWrap av) ∧
        (¬ count > maxSlots → Q () { av with alloc := some (b.grown count) }) := by
  rw [renew, wp_bind, wp_throwIf]
  simp only [wp_bind, wp_block halloc, wp_setAlloc]

theorem wp_newx {Q : Unit → Av α → Prop} (count : Int) : wp (newx count) av Q E ↔
      (count > maxSlots → E .memoryWrap av) ∧
        (¬ count > maxSlots → Q () { av with alloc := some (fresh count) }) := by
  rw [newx, wp_bind, wp_throwIf, wp_setAlloc]

end Steps

def MemoryCroak (e : Stop) : Prop := e = .arrayExtendOverflow ∨ e = .memoryWrap

/-- There is a slot for an index, or a block that fits, or a refusal before anything changes. -/
def Extends (av : Av α) (key : Int) : Prop :=
  key ≤ av.array + av.max ∨ key + (av.array + av.max).tdiv 5 + 1 ≤ maxSlots ∨
    (av.alloc.isSome ∧ av.array = 0)

section Room

variable {rcStack : Bool} {av : Av α} {l : List (Option α)} {key : Int}

theorem wp_smallGrowth (hmax : 0 ≤ av.max) (hkey : av.max < key) (hkey' : key ≤ ssizeMax)
    {Q : Int → Av α → Prop} {E : Stop → Av α → Prop}
    (hQ : ∀ key', key ≤ key' → key' = key ∨ key' ≤ 32 → Q key' av) :
    wp (smallGrowth key av.max (av.max.tdiv 5)) av Q E := by
  have hgrowth : av.max.tdiv 5 = av.max / 5 := Int.tdiv_eq_ediv_of_nonneg hmax
  rw [ssizeMax] at hkey'
  rw [smallGrowth, hgrowth, wp_ite]
  constructor
  · intro hsmall
    rw [wp_bind, wp_ssize (by rw [ssizeMax]; omega), wp_ite]
    refine ⟨fun hgap => ?_, fun _ => ?_⟩
    · rw [wp_ssize (by rw [ssizeMax]; omega)]
      exact hQ _ (by omega) (Or.inr (by omega))
    · exact hQ key (Int.le_refl key) (Or.inl rfl)
  · intro _
    exact hQ key (Int.le_refl key) (Or.inl rfl)

variable {b : Block (Option α)} {array max fill : Int}

theorem wp_resize (av : Av α) (halloc : av.alloc = some b) (hsize : b.size = av.max + 1)
    (hlimit : b.size ≤ maxSlots) (hmax : 0 ≤ av.max) (hkey : av.max < key) (hkey' : key ≤ ssizeMax)
    {aryOffset toNull : Int} (hoffset : 0 ≤ aryOffset) (hnull : 0 ≤ toNull)
    (hend : aryOffset + toNull = av.max + 1) :
    wp (resize key aryOffset toNull) av
      (fun _ av' => ∃ newmax, key ≤ newmax ∧ newmax + 1 ≤ maxSlots ∧ av' = { av with
        alloc := some ((b.grown (newmax + 1)).fill aryOffset (newmax + 1 - aryOffset) none)
        max := newmax
        array := 0 })
      (fun e av' => av' = av ∧ MemoryCroak e ∧ maxSlots < key + av.max.tdiv 5 + 1) := by
  have hgrowth : av.max.tdiv 5 = av.max / 5 := Int.tdiv_eq_ediv_of_nonneg hmax
  rw [resize, wp_bind, wp_get]
  dsimp only
  rw [wp_bind]
  apply wp_smallGrowth hmax hkey hkey'
  intro key' hle hsmall
  rw [hgrowth]
  rw [maxSlots] at hlimit ⊢
  rw [ssizeMax] at hkey'
  have hcapacity (newmax : Int)
      (hnewmax : (if key' > ssizeMax - av.max / 5 then ssizeMax else key' + av.max / 5) = newmax) :
      key ≤ newmax ∧ newmax ≤ 0x7fffffffffffffff ∧
        (0x1fffffffffffffff < newmax + 1 → 0x1fffffffffffffff < key + av.max / 5 + 1) := by
    rw [ssizeMax] at hnewmax
    split at hnewmax <;> omega
  generalize (if key' > ssizeMax - av.max / 5 then ssizeMax else key' + av.max / 5) = newmax
    at hcapacity ⊢
  obtain ⟨hroom, htop, hlarge⟩ := hcapacity newmax rfl
  rw [wp_bind, wp_throwIf]
  refine ⟨fun hover => ⟨rfl, Or.inl rfl, hlarge (by omega)⟩, fun _ => ?_⟩
  rw [wp_bind, wp_renew halloc]
  refine ⟨fun hover => ⟨rfl, Or.inr rfl, hlarge (by rw [maxSlots] at hover; omega)⟩,
    fun hfits => ?_⟩
  rw [maxSlots] at hfits
  rw [wp_bind, wp_ssize (by rw [ssizeMax]; omega), wp_bind, wp_ssize (by rw [ssizeMax]; omega),
    wp_bind, wp_setMax, wp_bind]
  have hcount : toNull + (newmax - av.max) = newmax + 1 - aryOffset := by omega
  rw [hcount, wp_zeroSlots rfl hoffset (by omega)
    (by rw [grown_size]; omega), wp_setArray]
  exact ⟨newmax, hroom, by omega, rfl⟩

/-- What a represented array says about its block. -/
structure InBlock (rcStack : Bool) (b : Block (Option α)) (array max fill : Int)
    (l : List (Option α)) : Prop where
  start : 0 ≤ array
  size : b.size = array + max + 1
  top : fill + 1 = l.length
  room : fill ≤ max
  items : ∀ (i : Nat) x, l[i]? = some x → b.slot (array + i) = .held x
  above : ∀ i, fill < i → i ≤ max → b.slot (array + i) = .held none
  shifted : rcStack = false → ∀ i, 0 ≤ i → i < array → b.slot i = .held none
  limit : b.size ≤ maxSlots
  block : 0 < b.size

theorem inBlock_iff :
    Represents rcStack ⟨some b, array, max, fill⟩ l ↔ InBlock rcStack b array max fill l := by
  constructor
  · intro h
    exact ⟨h.start, h.size, h.top, h.room, h.items, h.above, h.shifted, h.limit, h.block b rfl⟩
  · intro h
    refine ⟨h.start, h.size, h.top, h.room, h.items, h.above, h.shifted, h.limit, ?_⟩
    intro b' hb'
    rw [← Option.some.inj hb']
    exact h.block

theorem represents_none :
    Represents rcStack ⟨none, array, max, fill⟩ l ↔ array = 0 ∧ max = -1 ∧ fill = -1 ∧ l = [] := by
  constructor
  · intro h
    have hsize : (0 : Int) = array + max + 1 := h.size
    have hstart : 0 ≤ array := h.start
    have htop : fill + 1 = l.length := h.top
    have hroom : fill ≤ max := h.room
    exact ⟨by omega, by omega, by omega, List.eq_nil_of_length_eq_zero (by omega)⟩
  · intro h
    obtain ⟨rfl, rfl, rfl, rfl⟩ := h
    refine ⟨Int.le_refl 0, rfl, rfl, Int.le_refl _, ?_, ?_, ?_, ?_, ?_⟩
    · intro i x hx
      cases hx
    · intro i hi hi'
      change -1 < i at hi
      change i ≤ -1 at hi'
      omega
    · intro _ i hi hi'
      change i < 0 at hi'
      omega
    · change (0 : Int) ≤ maxSlots
      decide
    · intro b hb
      cases hb

theorem lt_length_of_getElem? {l : List (Option α)} {i : Nat} {x : Option α}
    (h : l[i]? = some x) : i < l.length := by
  obtain ⟨hi, -⟩ := List.getElem?_eq_some_iff.1 h
  exact hi

theorem inBlock_rebuilt (hsize : b.size = max + 1)
    (htop : fill + 1 = l.length) (hroom : fill ≤ max)
    (hitems : ∀ (i : Nat) x, l[i]? = some x → b.slot i = .held x)
    (habove : ∀ i, fill < i → i ≤ max → b.slot i = .held none) (hlimit : b.size ≤ maxSlots)
    (hpos : 0 < b.size) : InBlock rcStack b 0 max fill l where
  start := Int.le_refl 0
  size := by omega
  top := htop
  room := hroom
  items := by
    intro i x hx
    rw [Int.zero_add]
    exact hitems i x hx
  above := by
    intro i hi hi'
    rw [Int.zero_add]
    exact habove i hi hi'
  shifted := by
    intro _ i hi hi'
    omega
  limit := hlimit
  block := hpos

theorem wp_extendShifted
    (h : InBlock rcStack b array max fill l) (hkey : max < key) (hkey' : key ≤ ssizeMax)
    (hext : key ≤ array + max ∨ key + (array + max).tdiv 5 + 1 ≤ maxSlots) :
    wp (extendShifted key) ⟨some b, array, max, fill⟩
      (fun _ av' => ∃ b' max', av' = ⟨some b', 0, max', fill⟩ ∧ InBlock rcStack b' 0 max' fill l ∧
        key ≤ max')
      (fun _ _ => False) := by
  have hsize := h.size
  have htop := h.top
  have hroom := h.room
  have hstart := h.start
  have hlimit := h.limit
  have hpos := h.block
  rw [maxSlots] at hlimit
  rw [extendShifted, wp_bind, wp_get]
  dsimp only
  rw [wp_bind, wp_ssize (by rw [ssizeMax]; omega), wp_bind, wp_setMax, wp_bind,
    wp_moveSlots rfl (by omega) (by omega) (by omega) (by omega) (by omega), wp_ite]
  have hmoved (i : Nat) (x : Option α) (hx : l[i]? = some x) :
      (b.move array 0 (fill + 1)).slot i = .held x := by
    have hi := lt_length_of_getElem? hx
    rw [move_slot_in (by omega) (by omega), Int.sub_zero]
    exact h.items i x hx
  constructor
  · intro hlarge
    rw [wp_bind, wp_ssize (by rw [ssizeMax]; omega)]
    have hresize := wp_resize ⟨some (b.move array 0 (fill + 1)), array, max + array, fill⟩ rfl
      (by rw [move_size]; dsimp only; omega) (by rw [move_size]; exact h.limit)
      (by dsimp only; omega) hlarge hkey' (by omega : 0 ≤ fill + 1)
      (by omega : 0 ≤ max + array - fill) (by dsimp only; omega)
    apply wp_mono hresize
    · intro _ av' hav'
      obtain ⟨newmax, hroom', hfits, rfl⟩ := hav'
      refine ⟨_, newmax, rfl, inBlock_rebuilt rfl htop (by omega) ?_ ?_ hfits ?_, hroom'⟩
      · intro i x hx
        have hi := lt_length_of_getElem? hx
        rw [fill_slot_out (by omega), grown_slot (by rw [move_size]; omega)]
        exact hmoved i x hx
      · intro i hi hi'
        exact fill_slot_in (by omega) (by omega)
      · rw [fill_size, grown_size]
        omega
    · intro e av' hav'
      obtain ⟨-, -, hover⟩ := hav'
      dsimp only at hover
      rw [Int.add_comm max array] at hover
      rcases hext with hext | hext <;> omega
  · intro hsmall
    rw [wp_bind, wp_zeroSlots rfl (by omega) (by omega) (by rw [move_size]; omega),
      wp_setArray]
    refine ⟨_, max + array, rfl, inBlock_rebuilt ?_ htop (by omega) ?_ ?_ ?_ ?_, by omega⟩
    · rw [fill_size, move_size]
      omega
    · intro i x hx
      have hi := lt_length_of_getElem? hx
      rw [fill_slot_out (by omega)]
      exact hmoved i x hx
    · intro i hi hi'
      -- above the slots that are set lie those that were NULL behind the elements
      by_cases hin : i < fill + 1 + array
      · exact fill_slot_in (by omega) hin
      · rw [fill_slot_out (by omega), move_slot_out (by omega)]
        have hplace : array + (i - array) = i := by omega
        have hback := h.above (i - array) (by omega) (by omega)
        rwa [hplace] at hback
    · rw [fill_size, move_size]
      exact h.limit
    · rw [fill_size, move_size]
      exact h.block

theorem wp_extendNew (rcStack : Bool) (hkey : -1 < key) (hkey' : key + 1 ≤ maxSlots) :
    wp (extendNew key : AvM α Unit) ⟨none, 0, -1, -1⟩
      (fun _ av' => ∃ b' max', av' = ⟨some b', 0, max', -1⟩ ∧ InBlock rcStack b' 0 max' (-1) [] ∧
        key ≤ max')
      (fun _ _ => False) := by
  rw [maxSlots] at hkey'
  rw [extendNew]
  have hcapacity (max : Int) (hmax : (if key < 3 then 3 else key) = max) :
      3 ≤ max ∧ key ≤ max ∧ max + 1 ≤ 0x1fffffffffffffff := by
    split at hmax <;> omega
  generalize (if key < 3 then 3 else key) = max at hcapacity ⊢
  obtain ⟨hmin, hroom, hfits⟩ := hcapacity max rfl
  rw [wp_bind, wp_setMax, wp_bind, wp_throwIf]
  refine ⟨fun hover => by rw [maxSlots] at hover; omega, fun _ => ?_⟩
  rw [wp_bind, wp_newx]
  refine ⟨fun hover => by rw [maxSlots] at hover; omega, fun _ => ?_⟩
  rw [wp_bind, wp_zeroSlots rfl (by omega) (by omega) (by rw [fresh_size]; omega),
    wp_setArray]
  refine ⟨_, max, rfl, inBlock_rebuilt rfl rfl (by omega) ?_ ?_ ?_ ?_, hroom⟩
  · intro i x hx
    cases hx
  · intro i hi hi'
    exact fill_slot_in (by omega) (by omega)
  · rw [maxSlots]
    exact hfits
  · change 0 < max + 1
    omega

theorem wp_avExtend {av : Av α} (h : Represents rcStack av l) (hkey : -1 ≤ key)
    (hkey' : key ≤ ssizeMax) (hext : Extends av key) :
    wp (avExtend key) av
      (fun _ av' => Represents rcStack av' l ∧ key ≤ av'.max ∧ av'.fill = av.fill)
      (fun e av' => av' = av ∧ MemoryCroak e ∧ av.max < key ∧
        maxSlots < key + av.max.tdiv 5 + 1) := by
  obtain ⟨alloc, array, max, fill⟩ := av
  rw [avExtend, wp_bind, wp_throwIf]
  refine ⟨fun hneg => by omega, fun _ => ?_⟩
  rw [wp_bind, wp_get, wp_ite]
  refine ⟨fun hmore => ?_, fun hthere => ⟨h, Int.not_lt.1 hthere, rfl⟩⟩
  dsimp only at hmore ⊢
  rw [Extends] at hext
  dsimp only at hext
  cases alloc with
  | none =>
    obtain ⟨rfl, rfl, rfl, rfl⟩ := represents_none.1 h
    rw [if_neg (fun hne => hne rfl), if_neg (fun hsome => by cases hsome)]
    have hfits : key + 1 ≤ maxSlots := by
      rcases hext with hext | hext | hext
      · omega
      · exact (by simpa using hext)
      · cases hext.1
    apply wp_mono (wp_extendNew rcStack hmore hfits)
    · intro _ av' hav'
      obtain ⟨b', max', rfl, hin, hroom⟩ := hav'
      exact ⟨inBlock_iff.2 hin, hroom, rfl⟩
    · exact fun _ _ hfalse => hfalse.elim
  | some b =>
    have hin := inBlock_iff.1 h
    by_cases hshift : array ≠ 0
    · rw [if_pos hshift]
      have hext' : key ≤ array + max ∨ key + (array + max).tdiv 5 + 1 ≤ maxSlots := by
        rcases hext with hext | hext | hext
        · exact Or.inl hext
        · exact Or.inr hext
        · exact absurd hext.2 hshift
      apply wp_mono (wp_extendShifted hin hmore hkey' hext')
      · intro _ av' hav'
        obtain ⟨b', max', rfl, hin', hroom⟩ := hav'
        exact ⟨inBlock_iff.2 hin', hroom, rfl⟩
      · exact fun _ _ hfalse => hfalse.elim
    · have hzero : array = 0 := Decidable.not_not.1 hshift
      subst hzero
      rw [if_neg hshift, if_pos (by rfl)]
      have hsize := hin.size
      have hpos := hin.block
      have htop := hin.top
      have hroom := hin.room
      have hresize := wp_resize ⟨some b, 0, max, fill⟩ rfl (by dsimp only; omega) hin.limit
        (by dsimp only; omega) hmore hkey' (by omega : 0 ≤ max + 1) (Int.le_refl 0) (by dsimp only; omega)
      apply wp_mono hresize
      · intro _ av' hav'
        obtain ⟨newmax, hroom', hfits, rfl⟩ := hav'
        refine ⟨inBlock_iff.2 (inBlock_rebuilt rfl htop (by dsimp only; omega) ?_ ?_ hfits ?_),
          hroom', rfl⟩
        · intro i x hx
          have hi := lt_length_of_getElem? hx
          have hitem := hin.items i x hx
          rw [Int.zero_add] at hitem
          rw [fill_slot_out (by omega), grown_slot (by omega)]
          exact hitem
        · intro i hi hi'
          by_cases hold : i ≤ max
          · have hnull := hin.above i hi hold
            rw [Int.zero_add] at hnull
            rw [fill_slot_out (by omega), grown_slot (by omega)]
            exact hnull
          · exact fill_slot_in (by omega) (by omega)
        · rw [fill_size, grown_size]
          omega
      · exact fun _ _ hcroak => ⟨hcroak.1, hcroak.2.1, hmore, hcroak.2.2⟩

end Room

end XPerl.Arrays
