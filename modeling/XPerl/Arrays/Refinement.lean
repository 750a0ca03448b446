import Mathlib.Data.List.DropRight
import XPerl.Arrays.Av

/-! Sequences with holes, and the operations of an array on them. -/

namespace XPerl.Arrays

open XPerl.Framework.Exec XPerl.Framework.Slots

variable {α : Type}

/-- A call on an array. Indices and counts have type `SSize_t`; `lval` is the SV to store where an
element is missing. -/
inductive Op (α : Type) where
  | extend (key : Int64)
  | store (key : Int64) (val : Option α)
  | fetch (key : Int64) (lval : Option α)
  | push (val : Option α)
  | pop
  | shift
  | unshift (num : Int64)
  | fill (fill : Int64)
  | delete (key : Int64)
  | clear

/-- What a call returns; no element stands for NULL and for undef. -/
inductive Answer (α : Type) where
  | done
  | stored (there : Bool)
  | element (x : Option α)

def avStep (rcStack : Bool) : Op α → EStateM Stop (Av α) (Answer α)
  | .extend key => (fun _ => .done) <$> avExtend key.toInt
  | .store key val => .stored <$> avStore key.toInt val
  | .fetch key lval => .element <$> avFetch key.toInt lval
  | .push val => (fun _ => .done) <$> avPush val
  | .pop => .element <$> avPop
  | .shift => .element <$> avShift rcStack
  | .unshift num => (fun _ => .done) <$> avUnshift rcStack num.toInt
  | .fill fill => (fun _ => .done) <$> avFill fill.toInt
  | .delete key => .element <$> avDelete key.toInt
  | .clear => (fun _ => .done) <$> avClear rcStack

def indexOf (l : List (Option α)) (key : Int) : Int := if key < 0 then key + l.length else key

def put (l : List (Option α)) (i : Nat) (x : Option α) : List (Option α) :=
  (l ++ List.replicate (i + 1 - l.length) none).set i x

def resized (l : List (Option α)) (length : Nat) : List (Option α) :=
  l.take length ++ List.replicate (length - l.length) none

def without (l : List (Option α)) (i : Nat) : List (Option α) :=
  if i + 1 = l.length then (l.take i).rdropWhile Option.isNone else l.set i none

def seqStep (op : Op α) (l : List (Option α)) : Except Stop (Answer α) × List (Option α) :=
  match op with
  | .extend key =>
    if key.toInt < -1 then (.error (.arrayExtendIndexInvalid key.toInt), l) else (.ok .done, l)
  | .store key val =>
    let i := indexOf l key.toInt
    if i < 0 then (.ok (.stored false), l) else (.ok (.stored true), put l i.toNat val)
  | .fetch key lval =>
    let i := indexOf l key.toInt
    if i < 0 then (.ok (.element none), l)
    else
      match l[i.toNat]?.join, lval with
      | some x, _ => (.ok (.element (some x)), l)
      | none, none => (.ok (.element none), l)
      | none, some sv => (.ok (.element (some sv)), put l i.toNat (some sv))
  | .push val => (.ok .done, l ++ [val])
  | .pop => (.ok (.element l.getLast?.join), l.dropLast)
  | .shift => (.ok (.element l.head?.join), l.tail)
  | .unshift num => (.ok .done, List.replicate num.toInt.toNat none ++ l)
  | .fill fill => (.ok .done, resized l (fill.toInt + 1).toNat)
  | .delete key =>
    let i := indexOf l key.toInt
    if i < 0 then (.ok (.element none), l)
    else if i ≥ l.length then (.ok (.element none), l)
    else (.ok (.element l[i.toNat]?.join), without l i.toNat)
  | .clear => (.ok .done, [])

/-- The length that a call asks for. -/
def wanted (op : Op α) (l : List (Option α)) : Int :=
  match op with
  | .extend key => key.toInt + 1
  | .store key _ => key.toInt + 1
  | .fetch key _ => key.toInt + 1
  | .push _ => l.length + 1
  | .unshift num => l.length + num.toInt
  | .fill fill => fill.toInt + 1
  | _ => 0

@[simp] theorem length_put (l : List (Option α)) (i : Nat) (x : Option α) :
    (put l i x).length = max l.length (i + 1) := by
  rw [put, List.length_set, List.length_append, List.length_replicate]
  omega

theorem getElem?_put (l : List (Option α)) (i j : Nat) (x : Option α) :
    (put l i x)[j]? = if j = i then some x else if j < l.length then l[j]?
      else if j < i then some none else none := by
  rw [put, List.getElem?_set]
  by_cases hj : i = j
  · rw [if_pos hj, if_pos hj.symm, if_pos]
    rw [List.length_append, List.length_replicate]
    omega
  · rw [if_neg hj, if_neg (Ne.symm hj), List.getElem?_append]
    by_cases hlt : j < l.length
    · rw [if_pos hlt, if_pos hlt]
    · rw [if_neg hlt, if_neg hlt, List.getElem?_replicate]
      split <;> split <;> first | rfl | omega

@[simp] theorem length_resized (l : List (Option α)) (length : Nat) :
    (resized l length).length = length := by
  rw [resized, List.length_append, List.length_take, List.length_replicate]
  omega

theorem getElem?_resized (l : List (Option α)) (length j : Nat) :
    (resized l length)[j]? =
      if j < length then (if j < l.length then l[j]? else some none) else none := by
  rw [resized, List.getElem?_append, List.length_take]
  by_cases hj : j < length
  · by_cases hlt : j < l.length
    · rw [if_pos (by omega), if_pos hj, if_pos hlt, List.getElem?_take_of_lt hj]
    · rw [if_neg (by omega), if_pos hj, if_neg hlt, List.getElem?_replicate, if_pos (by omega)]
  · rw [if_neg (by omega), if_neg hj, List.getElem?_replicate, if_neg (by omega)]

/-! Every call on an array does on its sequence what it should, or is refused for its size. -/

variable {rcStack : Bool} {b : Block (Option α)} {array max fill : Int}
  {l : List (Option α)}

variable {key : Int} {E : Stop → Av α → Prop} {av : Av α}

theorem inBlock_put (h : InBlock rcStack b array max fill l) (hkey : 0 ≤ key)
    (hmax : key ≤ max) (val : Option α) :
    InBlock rcStack (b.write (array + key) val) array max (Max.max fill key)
      (put l key.toNat val) where
  start := h.start
  size := h.size
  top := by
    have htop := h.top
    rw [length_put]
    omega
  room := by
    have hroom := h.room
    omega
  items := by
    intro i x hx
    rw [getElem?_put] at hx
    have htop := h.top
    by_cases hi : i = key.toNat
    · rw [if_pos hi] at hx
      have hplace : array + i = array + key := by omega
      rw [hplace, Block.write_slot_self, Option.some.inj hx]
    · rw [if_neg hi] at hx
      rw [Block.write_slot_ne (by omega)]
      by_cases hlt : i < l.length
      · rw [if_pos hlt] at hx
        exact h.items i x hx
      · rw [if_neg hlt] at hx
        by_cases hbelow : i < key.toNat
        · rw [if_pos hbelow] at hx
          rw [← Option.some.inj hx]
          exact h.above i (by omega) (by omega)
        · rw [if_neg hbelow] at hx
          cases hx
  above := by
    intro i hi hi'
    rw [Block.write_slot_ne (by omega)]
    exact h.above i (by omega) hi'
  shifted := by
    intro hrc i hi hi'
    rw [Block.write_slot_ne (by omega)]
    exact h.shifted hrc i hi hi'
  limit := h.limit
  block := h.block

theorem InBlock.slot_top (h : InBlock rcStack b array max fill l) (hkey : 0 ≤ key)
    (hfill : key ≤ fill) :
    ∃ x, l[key.toNat]? = some x ∧ b.slot (array + key) = .held x := by
  have htop := h.top
  have hlt : key.toNat < l.length := by omega
  have hget := List.getElem?_eq_getElem hlt
  refine ⟨_, hget, ?_⟩
  have hitem := h.items key.toNat _ hget
  rwa [Int.toNat_of_nonneg hkey] at hitem

theorem wp_takePlace (h : InBlock rcStack b array max fill l) (hkey : 0 ≤ key)
    (hmax : key ≤ max) {Q : Unit → Av α → Prop}
    (hQ : Q () ⟨some b, array, max, Max.max fill key⟩) :
    wp (takePlace key) ⟨some b, array, max, fill⟩ Q E := by
  have hsize := h.size
  have hstart := h.start
  rw [takePlace, wp_bind, wp_get, wp_ite]
  refine ⟨fun hbeyond => ?_, fun hwithin => ?_⟩
  · dsimp only at hbeyond
    rw [Int.max_eq_right (Int.le_of_lt hbeyond)] at hQ
    exact hQ
  · dsimp only at hwithin ⊢
    obtain ⟨x, -, hslot⟩ := h.slot_top hkey (Int.not_lt.1 hwithin)
    rw [Int.max_eq_left (Int.not_lt.1 hwithin)] at hQ
    rw [wp_bind, wp_readSlot rfl hslot (by omega) (by omega)]
    exact hQ

theorem wp_storeThere (h : InBlock rcStack b array max fill l) (hkey : 0 ≤ key)
    (hmax : key ≤ max) (val : Option α) :
    wp (do takePlace key
           writeSlot ((← get).array + key) val
           pure true) ⟨some b, array, max, fill⟩
      (fun there av' => there = true ∧ Represents rcStack av' (put l key.toNat val)) E := by
  have hsize := h.size
  have hstart := h.start
  rw [wp_bind]
  apply wp_takePlace h hkey hmax
  rw [wp_bind, wp_get, wp_bind, wp_writeSlot rfl (by dsimp only; omega) (by dsimp only; omega),
    wp_pure]
  exact ⟨rfl, inBlock_iff.2 (inBlock_put h hkey hmax val)⟩

theorem wp_adjustKey (h : Represents rcStack av l)
    (hkey : -ssizeMax - 1 ≤ key) {Q : Int → Av α → Prop} :
    wp (adjustKey key) av Q E ↔ Q (indexOf l key) av := by
  have htop := h.top
  have hsize := h.size
  have hlimit := h.limit
  have hstart := h.start
  have hroom := h.room
  rw [maxSlots] at hlimit
  rw [ssizeMax] at hkey
  rw [adjustKey, indexOf]
  by_cases hneg : key < 0
  · rw [if_pos hneg, if_pos hneg, wp_bind, wp_get]
    dsimp only
    rw [wp_ssize (by rw [ssizeMax]; omega), htop]
  · rw [if_neg hneg, if_neg hneg, wp_pure]

/-- How a call ends that is refused for its size. -/
def Refused (rcStack : Bool) (wanted : Int) (l : List (Option α)) (e : Stop) (av : Av α) : Prop :=
  MemoryCroak e ∧ 576460752303423488 ≤ wanted ∧ Represents rcStack av l

theorem wp_avStore (h : Represents rcStack av l)
    (hkey : -ssizeMax - 1 ≤ key) (hkey' : key ≤ ssizeMax) (val : Option α)
    (hext : Extends av key) :
    wp (avStore key val) av
      (fun there av' => there = decide (0 ≤ indexOf l key) ∧ Represents rcStack av'
        (if 0 ≤ indexOf l key then put l (indexOf l key).toNat val else l))
      (fun e av' => av.max < key ∧ Refused rcStack (key + 1) l e av') := by
  have htop := h.top
  have hroom := h.room
  have hsize := h.size
  have hlimit := h.limit
  have hstart := h.start
  rw [maxSlots] at hlimit
  rw [avStore, wp_bind, wp_adjustKey h hkey, wp_ite]
  refine ⟨fun hneg => ?_, fun hpos => ?_⟩
  · rw [wp_pure, if_neg (Int.not_le.2 hneg)]
    exact ⟨(decide_eq_false (Int.not_le.2 hneg)).symm, h⟩
  · have hpos : 0 ≤ indexOf l key := Int.not_lt.1 hpos
    rw [if_pos hpos, decide_eq_true hpos]
    have hindex : indexOf l key = key ∨ indexOf l key ≤ av.fill := by
      rw [indexOf]
      split <;> omega
    have hstored {av' : Av α} (h' : Represents rcStack av' l) (hmax : indexOf l key ≤ av'.max) :
        wp (do takePlace (indexOf l key)
               writeSlot ((← get).array + indexOf l key) val
               pure true) av'
          (fun there av'' => there = true ∧
            Represents rcStack av'' (put l (indexOf l key).toNat val))
          (fun e av' => av.max < key ∧ Refused rcStack (key + 1) l e av') := by
      obtain ⟨alloc, array, max, fill⟩ := av'
      cases alloc with
      | none =>
        obtain ⟨-, hmax', -⟩ := represents_none.1 h'
        dsimp only at hmax
        omega
      | some b => exact wp_storeThere (inBlock_iff.1 h') hpos hmax val
    rw [wp_bind, reach, wp_bind, wp_get, wp_ite]
    refine ⟨fun hbeyond => ?_, fun hwithin => ?_⟩
    · have hsame : indexOf l key = key := by omega
      rw [hsame] at hstored hpos ⊢
      apply wp_mono (wp_avExtend h (by omega) hkey' hext)
      · intro _ av' hav'
        obtain ⟨h', hmax, -⟩ := hav'
        exact hstored h' hmax
      · intro e av' hcroak
        obtain ⟨rfl, hcroak, hless, hover⟩ := hcroak
        have hdiv : av'.max.tdiv 5 ≤ key := by
          rcases Int.lt_or_le av'.max 0 with hneg | hnonneg
          · have hminus : av'.max = -1 := by omega
            rw [hminus]
            exact Int.le_trans (by decide) hpos
          · rw [Int.tdiv_eq_ediv_of_nonneg hnonneg]
            omega
        rw [maxSlots] at hover
        exact ⟨hless, hcroak, by omega, h⟩
    · rw [wp_pure]
      exact hstored h (Int.not_lt.1 hwithin)

theorem extends_of_le (h : Represents rcStack av l) (hkey : key ≤ av.max) :
    Extends av key := by
  have hstart := h.start
  exact Or.inl (by omega)

theorem Represents.inside (h : Represents rcStack av l) {i : Int} (hi : 0 ≤ i)
    (hfill : i ≤ av.fill) :
    ∃ b x, av.alloc = some b ∧ InBlock rcStack b av.array av.max av.fill l ∧
      l[i.toNat]? = some x ∧ b.slot (av.array + i) = .held x ∧ av.array + i < b.size := by
  obtain ⟨alloc, array, max, fill⟩ := av
  cases alloc with
  | none =>
    obtain ⟨-, -, hfill', -⟩ := represents_none.1 h
    dsimp only at hfill
    omega
  | some b =>
    have hin := inBlock_iff.1 h
    have hsize := hin.size
    have hroom := hin.room
    obtain ⟨x, hget, hslot⟩ := hin.slot_top hi hfill
    exact ⟨b, x, rfl, hin, hget, hslot, by dsimp only at hfill ⊢; omega⟩

theorem wp_fetchMissing (h : Represents rcStack av l) (hkey : 0 ≤ key)
    (hkey' : key ≤ ssizeMax) (sv : α) (hext : Extends av key) :
    wp (fetchMissing key (some sv)) av
      (fun x av' => x = some sv ∧ Represents rcStack av' (put l key.toNat (some sv)))
      (fun e av' => av.max < key ∧ Refused rcStack (key + 1) l e av') := by
  have hindex : indexOf l key = key := if_neg (Int.not_lt.2 hkey)
  have hstore := wp_avStore h (by rw [ssizeMax]; omega) hkey' (some sv) hext
  rw [hindex, if_pos hkey] at hstore
  rw [fetchMissing, wp_bind]
  apply wp_mono hstore
  · intro _ av' hav'
    exact ⟨rfl, hav'.2⟩
  · exact fun _ _ he => he

theorem wp_avFetch (h : Represents rcStack av l) (key : Int64) (lval : Option α)
    (hext : lval = none ∨ Extends av key.toInt) :
    wp (avFetch key.toInt lval) av
      (fun x av' => (seqStep (.fetch key lval) l).1 = .ok (.element x) ∧
        Represents rcStack av' (seqStep (.fetch key lval) l).2)
      (Refused rcStack (wanted (.fetch key lval) l) l) := by
  have hlow := key.le_toInt
  have hhigh := key.toInt_lt
  have htop := h.top
  have hroom := h.room
  have hlimit := h.limit
  have hsize := h.size
  have hstart := h.start
  rw [maxSlots] at hlimit
  rw [avFetch, wp_bind, wp_adjustKey h (by rw [ssizeMax]; omega), wp_bind, wp_get, wp_ite, wanted]
  simp only [seqStep]
  have hindex : indexOf l key.toInt = key.toInt ∨ (key.toInt < 0 ∧ indexOf l key.toInt ≤ av.fill) := by
    rw [indexOf]
    split <;> omega
  generalize indexOf l key.toInt = i at hindex ⊢
  refine ⟨fun hout => ?_, fun hin => ?_⟩
  · by_cases hneg : key.toInt < 0
    · have hi : i < 0 := by omega
      rw [if_pos hneg, if_pos hi, fetchMissing, wp_pure]
      exact ⟨rfl, h⟩
    · have hsame : i = key.toInt := by omega
      have hnone : l[i.toNat]? = none := List.getElem?_eq_none (by omega)
      rw [if_neg hneg, if_neg (by omega), hnone]
      cases lval with
      | none => exact ⟨rfl, h⟩
      | some sv =>
        have hext' : Extends av i := by
          rw [hsame]
          exact hext.resolve_left (fun hno => by cases hno)
        rw [← hsame]
        apply wp_mono (wp_fetchMissing h (by omega) (by rw [ssizeMax]; omega) sv hext')
        · intro x av' hav'
          rw [hav'.1]
          exact ⟨rfl, hav'.2⟩
        · exact fun _ _ he => he.2
  · have hin := Decidable.not_not.1 hin
    obtain ⟨b, x, hb, hblock, hget, hslot, hplace⟩ := h.inside hin.1 (by omega)
    rw [if_neg (by omega), hget, wp_bind, wp_readSlot hb hslot (by omega) hplace]
    cases x with
    | some x => exact ⟨rfl, h⟩
    | none =>
      cases lval with
      | none => exact ⟨rfl, h⟩
      | some sv =>
        apply wp_mono (wp_fetchMissing h hin.1 (by rw [ssizeMax]; omega) sv
          (extends_of_le h (by omega)))
        · intro x av' hav'
          rw [hav'.1]
          exact ⟨rfl, hav'.2⟩
        · intro e av' he
          have hless := he.1
          omega

end XPerl.Arrays
