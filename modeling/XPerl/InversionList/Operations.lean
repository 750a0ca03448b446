import Mathlib.Data.List.Basic

/-! An inversion list in its buffer, and the ways it is read, written, grown and replaced. -/

namespace XPerl.InversionList

def uvMax : Nat := 18446744073709551615

def uvSucc (x : Nat) : Nat := (x + 1) % 18446744073709551616

def uvPred (x : Nat) : Nat := (x + uvMax) % 18446744073709551616

def elementRangeMatches (i : Int) : Bool := i % 2 = 0

def prevRangeMatches (i : Int) : Bool := !elementRangeMatches i

/-- What may go wrong: an index outside the list or the room made for it, or a range that is
appended out of order. -/
inductive Fault where
  | outOfBounds
  | appendOrderInvalid
deriving DecidableEq

/-- An `SVt_INVLIST` scalar: its buffer and `SvCUR` in UVs, whether the list begins behind the
hidden zero, and the index of the last search. -/
structure Invlist where
  slots : List Nat
  cur : Nat
  isOffset : Bool
  prevIndex : Int
deriving DecidableEq

namespace Invlist

def offset (l : Invlist) : Nat := if l.isOffset then 1 else 0

def len (l : Invlist) : Nat := if l.cur = 0 then 0 else l.cur - l.offset

def array (l : Invlist) : List Nat := (l.slots.take l.cur).drop l.offset

/-- `array[i]`, inside the list or at its hidden zero. -/
def read (l : Invlist) (i : Int) : Except Fault Nat :=
  if 0 ≤ i + l.offset ∧ i + l.offset < l.cur then .ok (l.slots.getD (i + l.offset).toNat 0)
  else .error .outOfBounds

def write (l : Invlist) (i : Int) (value : Nat) : Except Fault Invlist :=
  if 0 ≤ i + l.offset ∧ i + l.offset < l.slots.length then
    .ok { l with slots := l.slots.set (i + l.offset).toNat value }
  else .error .outOfBounds

/-- `Move(array + source, array + dest, count, UV)`, from inside the list into the buffer. -/
def move (l : Invlist) (source dest count : Int) : Except Fault Invlist :=
  if 0 ≤ count ∧ 0 ≤ source + l.offset ∧ source + l.offset + count ≤ l.cur ∧
      0 ≤ dest + l.offset ∧ dest + l.offset + count ≤ l.slots.length then
    .ok { l with slots := l.slots.take (dest + l.offset).toNat ++
      (l.slots.drop (source + l.offset).toNat).take count.toNat ++
      l.slots.drop (dest + l.offset + count).toNat }
  else .error .outOfBounds

def setLen (l : Invlist) (len : Nat) (isOffset : Bool) : Invlist :=
  { l with cur := if len = 0 then 0 else len + if isOffset then 1 else 0 }

def strlenRoundup (n : Nat) : Nat := (n + 7) / 8 * 8

def expectedSize (n : Nat) : Nat := if 16 < n then strlenRoundup n else 16

def svLen (l : Invlist) : Nat := l.slots.length * 8

/-- `SvGROW`: room for so many bytes, where new room holds junk. -/
def svGrow (junk : Nat) (l : Invlist) (newlen : Nat) : Invlist :=
  if l.svLen < newlen then
    let minlen := l.cur * 8 + l.cur * 8 / 4 + 16
    let newlen := if newlen + 1 < minlen then minlen else newlen + 1
    let newlen := if l.svLen = 0 then expectedSize newlen else strlenRoundup newlen
    { l with slots := l.slots ++ List.replicate (newlen / 8 - l.slots.length) junk }
  else l

def extend (junk : Nat) (l : Invlist) (newMax : Nat) : Invlist := l.svGrow junk ((newMax + 1) * 8)

def max (l : Invlist) : Nat := (if l.svLen = 0 then l.cur else l.slots.length) - 1

def trim (l : Invlist) : Invlist :=
  let minSize := Nat.max 16 (1 * 8 + 1)
  let realisticSize := expectedSize (Nat.max minSize (l.cur * 8 + 1))
  if realisticSize + 4 * 8 < l.svLen then { l with slots := l.slots.take (realisticSize / 8) }
  else l

def clear (l : Invlist) : Invlist := (l.setLen 0 false).trim

def initializeGuts (junk : Nat) (l : Invlist) (initialSize : Nat) : Invlist :=
  { (l.svGrow junk ((initialSize + 1) * 8 + 1)).setLen 0 false with prevIndex := 0 }

def new (junk : Nat) (initialSize : Nat) : Invlist :=
  initializeGuts junk ⟨[], 0, false, 0⟩ initialSize

def arrayInit (l : Invlist) (willHave0 : Bool) : Except Fault Invlist :=
  if 0 < l.slots.length then .ok { l with slots := l.slots.set 0 0, isOffset := !willHave0 }
  else .error .outOfBounds

/-- `array[src_byte_len - 1] = '\0'` ends the buffer, and with it its last UV. -/
def endWithNul (slots : List Nat) : List Nat :=
  slots.set (slots.length - 1) (slots.getD (slots.length - 1) 0 % 72057594037927936)

def replaceListDestroysSrc (dest src : Invlist) : Invlist :=
  { ({ dest with slots := endWithNul src.slots, isOffset := src.isOffset } : Invlist).setLen src.len
      src.isOffset with prevIndex := 0 }

/-- `invlist_clone`, into a new list or into one that exists. -/
def clone (junk : Nat) (l : Invlist) (newInvlist : Option Invlist) : Invlist :=
  let nominalLength := l.len
  let dest := match newInvlist with
    | none => new junk nominalLength
    | some l' => initializeGuts junk l' nominalLength
  let dest := { dest with isOffset := l.isOffset }.setLen nominalLength l.isOffset
  { dest with slots := l.slots.take l.cur ++ dest.slots.drop l.cur }

end Invlist

/-! The operations on inversion lists. -/

namespace Invlist

/-- `append_range_to_invlist_` where the new range extends no range of the list. -/
def addAtEnd (junk : Nat) (l : Invlist) (max len : Nat) (isOffset : Bool) (start stop : Nat) :
    Except Fault Invlist := do
  let len := len + 2
  let l := if max < len then (l.extend junk len).setLen len isOffset else l.setLen len isOffset
  let l ← l.write (len - 2) start
  if stop ≠ uvMax then l.write (len - 1) (uvSucc stop)
  else .ok (l.setLen (len - 1) isOffset)

def appendRange (junk : Nat) (l : Invlist) (start stop : Nat) : Except Fault Invlist := do
  if l.len = 0 then
    let isOffset : Bool := start ≠ 0
    let l' ← l.arrayInit (!isOffset)
    addAtEnd junk l' l.max 0 isOffset start stop
  else
    let finalElement := l.len - 1
    let final ← l.read finalElement
    if start < final ∨ elementRangeMatches finalElement then .error .appendOrderInvalid
    else if final = start then
      if stop ≠ uvMax then l.write finalElement (uvSucc stop)
      else .ok (l.setLen (l.len - 1) l.isOffset)
    else addAtEnd junk l l.max l.len l.isOffset start stop

def ofRange (junk : Nat) (start stop : Nat) : Except Fault Invlist :=
  (new junk 2).appendRange junk start stop

def searchLoop (l : Invlist) (cp : Nat) (low high : Int) : Except Fault Int :=
  if low < high then
    match l.read ((low + high) / 2) with
    | .error fault => .error fault
    | .ok x =>
      if x ≤ cp then searchLoop l cp ((low + high) / 2 + 1) high
      else searchLoop l cp low ((low + high) / 2)
  else .ok high
termination_by (high - low).toNat
decreasing_by all_goals omega

def foundEntry (l : Invlist) (high : Int) : Int × Invlist :=
  (high - 1, { l with prevIndex := high - 1 })

def search (l : Invlist) (cp : Nat) : Except Fault (Int × Invlist) := do
  let high : Int := l.len
  let highestElement := high - 1
  if high = 0 then .ok (-1, l)
  else
    let mid := if highestElement < l.prevIndex then highestElement else l.prevIndex
    let atMid ← l.read mid
    if atMid ≤ cp then
      let highest ← l.read highestElement
      if highest ≤ cp then .ok (highestElement, l)
      else
        let next ← l.read (mid + 1)
        if cp < next then .ok (mid, l)
        else
          let high ← l.searchLoop cp (mid + 1) (high - 1)
          .ok (l.foundEntry high)
    else
      let lowest ← l.read 0
      if cp < lowest then .ok (-1, l)
      else
        let below ← l.read (mid - 1)
        if below ≤ cp then .ok (l.foundEntry mid)
        else
          let high ← l.searchLoop cp 0 mid
          .ok (l.foundEntry high)

def containsCp (l : Invlist) (cp : Nat) : Except Fault (Bool × Invlist) := do
  let (index, l) ← l.search cp
  .ok (decide (0 ≤ index) && elementRangeMatches index, l)

def invert (junk : Nat) (l : Invlist) : Except Fault Invlist :=
  if l.len = 0 then l.appendRange junk 0 uvMax else .ok { l with isOffset := !l.isOffset }

def highest (l : Invlist) : Except Fault Nat := do
  if l.len = 0 then .ok 0
  else if elementRangeMatches (l.len - 1 : Int) then .ok uvMax
  else
    let last ← l.read (l.len - 1 : Int)
    .ok (uvPred last)

/-- The array of the complement of a list that is not empty: it begins one later or one earlier. -/
def complementArray (l : Invlist) : Except Fault (List Nat) := do
  let first ← l.read 0
  if first = 0 then .ok l.array.tail
  else
    let hidden ← l.read (-1)
    .ok (hidden :: l.array)

def invlistEQ (a b : Invlist) (complementB : Bool) : Except Fault Bool := do
  if a.len = 0 ∧ b.len = 0 then .ok !complementB
  else if complementB then
    if b.len = 0 then
      if a.len = 1 then
        let first ← a.read 0
        .ok (decide (first = 0))
      else .ok false
    else
      let arrayB ← b.complementArray
      .ok (decide (a.len = arrayB.length) && decide (a.array = arrayB))
  else .ok (decide (a.len = b.len) && decide (a.array = b.array))

/-- The state of a merge: both indexes, the count of sets that hold the place, the output, and what
is left. -/
structure Merge where
  iA : Nat
  iB : Nat
  count : Nat
  out : List Nat
  leftA : List Nat
  leftB : List Nat

/-- The loop over both arrays: `aFirst` settles a tie, `put` makes the next count and output. -/
def mergeLoop (aFirst : Nat → Bool) (put : Nat → List Nat → Nat → Bool → Nat × List Nat)
    (m : Merge) : Merge :=
  match m with
  | ⟨iA, iB, count, out, a :: leftA, b :: leftB⟩ =>
    if a < b ∨ (a = b ∧ aFirst iA) then
      mergeLoop aFirst put
        ⟨iA + 1, iB, (put count out a (elementRangeMatches iA)).1,
          (put count out a (elementRangeMatches iA)).2, leftA, b :: leftB⟩
    else
      mergeLoop aFirst put
        ⟨iA, iB + 1, (put count out b (elementRangeMatches iB)).1,
          (put count out b (elementRangeMatches iB)).2, a :: leftA, leftB⟩
  | m => m
termination_by m.leftA.length + m.leftB.length

/-- What is left in the array that is not used up. -/
def Merge.left (m : Merge) : List Nat := if 0 < m.leftA.length then m.leftA else m.leftB

/-- `new_invlist_` and what the merge writes into it. -/
def ofArray (junk : Nat) (room : Nat) (willHave0 : Bool) (array : List Nat) :
    Except Fault Invlist := do
  let l ← (new junk room).arrayInit willHave0
  if l.offset + array.length ≤ l.slots.length then
    let slots := l.slots.take l.offset ++ array ++ l.slots.drop (l.offset + array.length)
    let l := { l with slots := slots }
    .ok (if array.length ≠ l.len then (l.setLen array.length l.isOffset).trim else l)
  else .error .outOfBounds

def putUnion (count : Nat) (out : List Nat) (cp : Nat) (cpInSet : Bool) : Nat × List Nat :=
  if cpInSet then (uvSucc count, if count = 0 then out ++ [cp] else out)
  else (uvPred count, if uvPred count = 0 then out ++ [cp] else out)

def putIntersection (count : Nat) (out : List Nat) (cp : Nat) (cpInSet : Bool) : Nat × List Nat :=
  if cpInSet then (uvSucc count, if uvSucc count = 2 then out ++ [cp] else out)
  else (uvPred count, if count = 2 then out ++ [cp] else out)

def maybeComplement (l : Invlist) (complement : Bool) : Except Fault (List Nat) :=
  if complement then l.complementArray else .ok l.array

def cloneMaybeInverted (junk : Nat) (l : Invlist) (complement : Bool) : Except Fault Invlist :=
  if complement then (l.clone junk none).invert junk else .ok (l.clone junk none)

def unionArray (a b : List Nat) : List Nat :=
  let m := mergeLoop (fun i => elementRangeMatches i) putUnion ⟨0, 0, 0, [], a, b⟩
  let count :=
    if (m.iA ≠ a.length ∧ prevRangeMatches m.iA) ∨ (m.iB ≠ b.length ∧ prevRangeMatches m.iB) then
      uvPred m.count
    else m.count
  if count ≠ 0 then m.out else m.out ++ m.left

def intersectionArray (a b : List Nat) : List Nat :=
  let m := mergeLoop (fun i => !elementRangeMatches i) putIntersection ⟨0, 0, 0, [], a, b⟩
  let count :=
    if (m.iA = a.length ∧ prevRangeMatches m.iA) ∨ (m.iB = b.length ∧ prevRangeMatches m.iB) then
      uvSucc m.count
    else m.count
  if count < 2 then m.out else m.out ++ m.left

def has0 (array : List Nat) : Bool := 0 < array.length ∧ array.getD 0 0 = 0

/-- The list behind `*output`, as it is before the call. -/
structure Output where
  list : Invlist
  isA : Bool

/-- `*output` becomes the new list, or takes over what it holds. -/
def give (output : Option Output) (l : Invlist) : Invlist :=
  match output with
  | none => l
  | some o => o.list.replaceListDestroysSrc l

/-- `*output` becomes a new empty list, or is cleared. -/
def giveEmpty (junk : Nat) (output : Option Output) : Invlist :=
  match output with
  | none => new junk 0
  | some o => o.list.clear

/-- `invlist_union_maybe_complement_2nd_`: the list behind `*output` after the call. -/
def union (junk : Nat) (a : Option Invlist) (b : Invlist) (complementB : Bool)
    (output : Option Output) : Except Fault Invlist := do
  let lenA := (a.map len).getD 0
  if b.len = 0 then
    if complementB then
      let everything ← ofRange junk 0 uvMax
      .ok (give output everything)
    else
      match a with
      | none => .ok (giveEmpty junk output)
      | some a =>
        if a.len = 0 then .ok (giveEmpty junk output)
        else match output with
          | none => .ok (a.clone junk none)
          | some o => .ok (if o.isA then o.list else o.list.replaceListDestroysSrc (a.clone junk none))
  else
    match a with
    | none =>
      let dest ← b.cloneMaybeInverted junk complementB
      .ok (give output dest)
    | some a =>
      if lenA = 0 then
        let dest ← b.cloneMaybeInverted junk complementB
        .ok (give output dest)
      else
        let arrayB ← b.maybeComplement complementB
        let u ← ofArray junk (lenA + arrayB.length) (has0 a.array || has0 arrayB)
          (unionArray a.array arrayB)
        .ok (give output u)

/-- `invlist_intersection_maybe_complement_2nd_`: the list behind `*i` after the call. -/
def intersection (junk : Nat) (a : Option Invlist) (b : Invlist) (complementB : Bool)
    (output : Option Output) : Except Fault Invlist := do
  match a with
  | none => .ok (giveEmpty junk output)
  | some a =>
    if a.len = 0 ∨ b.len = 0 then
      if a.len ≠ 0 ∧ complementB then
        match output with
        | none => .ok (a.clone junk none)
        | some o => .ok (if o.isA then o.list else o.list.replaceListDestroysSrc (a.clone junk none))
      else .ok (giveEmpty junk output)
    else
      let arrayB ← b.maybeComplement complementB
      let r ← ofArray junk (a.len + arrayB.length) (has0 a.array && has0 arrayB)
        (intersectionArray a.array arrayB)
      match output with
      | none => .ok r
      | some o => .ok (if r.len ≠ 0 then o.list.replaceListDestroysSrc r else o.list.clear)

/-- `add_range_to_invlist_` from `splice_in_new_range` on. -/
def spliceInNewRange (junk : Nat) (l : Invlist) (len : Nat) (iE : Int) (start stop : Nat) :
    Except Fault Invlist := do
  let l := l.extend junk (len + 2)
  let l ← l.move (iE + 1) (iE + 3) (len - iE - 1)
  let l ← l.write (iE + 1) start
  let l ← l.write (iE + 2) (uvSucc stop)
  .ok (l.setLen (len + 2) l.isOffset)

/-- `add_range_to_invlist_` where the new range ends in a gap: it joins the range above or ends the
range below later. -/
def adjustEnd (l : Invlist) (iE : Int) (start stop : Nat) : Except Fault (Invlist × Int) := do
  if elementRangeMatches iE then .ok (l, iE)
  else
    let above ← l.read (iE + 1)
    if uvSucc stop = above then
      let l ← l.write (iE + 1) start
      .ok (l, iE + 1)
    else
      let final ← l.read iE
      if start ≤ final then
        let l ← l.write iE (uvSucc stop)
        .ok (l, iE - 1)
      else .ok (l, iE)

/-- `add_range_to_invlist_` once the new start has extended what it adjoins. -/
def finishRange (junk : Nat) (l : Invlist) (len : Nat) (iS iE : Int) (start stop : Nat) :
    Except Fault Invlist := do
  if stop = uvMax then .ok (l.setLen (iS + 1).toNat l.isOffset)
  else
    let (l, iE) ← l.adjustEnd iE start stop
    if iS = iE then
      if elementRangeMatches iS then .ok l
      else l.spliceInNewRange junk len iE start stop
    else
      let l ← l.move (iE + 1) (iS + 1) (len - iE - 1)
      .ok (l.setLen (len - iE + iS).toNat l.isOffset)

def extendsTheRangeAbove (l : Invlist) (iS : Int) (stop : Nat) : Except Fault Bool :=
  if stop = uvMax then .ok true
  else do
    let above ← l.read (iS + 1)
    .ok (decide (above ≤ uvSucc stop))

/-- `add_range_to_invlist_` once both ends of the new range have been found. -/
def placeRange (junk : Nat) (l : Invlist) (len : Nat) (iS iE : Int) (start stop : Nat) :
    Except Fault Invlist := do
  if elementRangeMatches iS then l.finishRange junk len iS iE start stop
  else
    let above ← l.extendsTheRangeAbove iS stop
    let below ← l.read iS
    if start = below then
      if iE - iS ≤ 1 ∧ above then
        let l ← l.move (iS + 2) iS (len - iS - 2)
        .ok (l.setLen (len - 2) l.isOffset)
      else
        let iE := if iE - iS ≤ 1 then iE - 1 else iE
        let l ← l.write iS (if stop = uvMax then uvMax else uvSucc stop)
        let start ← l.read (iS - 1)
        l.finishRange junk len (iS - 1) iE start stop
    else if above then
      let iE := if iE = iS then iE + 1 else iE
      let l ← l.write (iS + 1) start
      l.finishRange junk len (iS + 1) iE start stop
    else l.finishRange junk len iS iE start stop

/-- `add_range_to_invlist_` once the start has been found: the end, if it is not known yet. -/
def findEnd (junk : Nat) (l : Invlist) (len : Nat) (iS iE : Int) (start stop : Nat) :
    Except Fault Invlist := do
  if iE = 0 then
    if start = stop then l.placeRange junk len iS iS start stop
    else
      let (iE, l) ← l.search stop
      l.placeRange junk len iS iE start stop
  else l.placeRange junk len iS iE start stop

/-- `add_range_to_invlist_` once what lies above the list has been appended. -/
def addBelow (junk : Nat) (l : Invlist) (len : Nat) (iE : Int) (start stop : Nat) :
    Except Fault Invlist := do
  let first ← l.read 0
  if start < first then
    if start = 0 then
      let range ← ofRange junk start stop
      union junk (some l) range false (some ⟨l, true⟩)
    else if stop < uvPred first then l.spliceInNewRange junk len (-1) start stop
    else
      let l ← l.write 0 start
      l.findEnd junk len 0 iE start stop
  else
    let (iS, l) ← l.search start
    l.findEnd junk len iS iE start stop

def addRange (junk : Nat) (invlist : Option Invlist) (start stop : Nat) : Except Fault Invlist := do
  match invlist with
  | none => ofRange junk start stop
  | some l =>
    if l.len = 0 then l.appendRange junk start stop
    else
      let curHighest ← l.highest
      if curHighest < stop then
        if curHighest < start then l.appendRange junk start stop
        else
          let l' ← l.appendRange junk (uvSucc curHighest) stop
          l'.addBelow junk l.len (if stop = uvMax then l.len else l.len - 2) start stop
      else l.addBelow junk l.len 0 start stop

end Invlist

end XPerl.InversionList
