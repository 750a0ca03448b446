import XPerl.Arrays.Refinement

/-! The calls that change an array at its ends. -/

namespace XPerl.Arrays

open XPerl.Framework.Exec XPerl.Framework.Slots Block

variable {α : Type} {rcStack : Bool} {b : Block (Option α)} {array max fill : Int}
  {l : List (Option α)}

variable {av : Av α} {E : Stop → Av α → Prop} {count : Nat}

theorem Represents.nil (h : Represents rcStack av l) (hfill : av.fill < 0) : l = [] := by
  have htop := h.top
  exact List.eq_nil_of_length_eq_zero (by omega)

theorem put_of_lt {i : Nat} (hi : i < l.length) (x : Option α) : put l i x = l.set i x := by
  rw [put, Nat.sub_eq_zero_of_le hi, List.replicate_zero, List.append_nil]

theorem put_length (x : Option α) : put l l.length x = l ++ [x] := by
  apply List.ext_getElem?
  intro j
  rw [getElem?_put, List.getElem?_append]
  by_cases hj : j = l.length
  · rw [if_pos hj, if_neg (by omega), hj, Nat.sub_self]
    rfl
  · rw [if_neg hj]
    by_cases hlt : j < l.length
    · rw [if_pos hlt, if_pos hlt]
    · rw [if_neg hlt, if_neg hlt, if_neg hlt, List.getElem?_eq_none]
      rw [List.length_singleton]
      omega

theorem wp_avPush (h : Represents rcStack av l) (val : Option α)
    (hext : Extends av (av.fill + 1)) :
    wp (avPush val) av (fun _ av' => Represents rcStack av' (l ++ [val]))
      (Refused rcStack (wanted (.push val) l) l) := by
  have htop := h.top
  have hroom := h.room
  have hlimit := h.limit
  have hsize := h.size
  have hstart := h.start
  rw [maxSlots] at hlimit
  have hindex : indexOf l (av.fill + 1) = av.fill + 1 := if_neg (by omega)
  have hnat : (av.fill + 1).toNat = l.length := by omega
  have hstore := wp_avStore h (by rw [ssizeMax]; omega) (by rw [ssizeMax]; omega) val hext
  rw [hindex, if_pos (by omega), hnat, put_length] at hstore
  rw [avPush, wp_bind, wp_get, wp_bind, wp_ssize (by rw [ssizeMax]; omega), wp_bind]
  apply wp_mono hstore
  · intro _ av' hav'
    exact hav'.2
  · intro e av' he
    rw [wanted]
    obtain ⟨-, hcroak, hlarge, h'⟩ := he
    exact ⟨hcroak, by omega, h'⟩

theorem inBlock_dropLast (h : InBlock rcStack b array max fill l) (hfill : 0 ≤ fill) :
    InBlock rcStack (b.write (array + fill) none) array max (fill - 1) l.dropLast where
  start := h.start
  size := h.size
  top := by
    have htop := h.top
    rw [List.length_dropLast]
    omega
  room := by
    have hroom := h.room
    omega
  items := by
    intro i x hx
    have htop := h.top
    rw [List.getElem?_dropLast] at hx
    by_cases hi : i < l.length - 1
    · rw [if_pos hi] at hx
      rw [write_slot_ne (by omega)]
      exact h.items i x hx
    · rw [if_neg hi] at hx
      cases hx
  above := by
    intro i hi hi'
    by_cases heq : i = fill
    · rw [heq, write_slot_self]
    · rw [write_slot_ne (by omega)]
      exact h.above i (by omega) hi'
  shifted := by
    intro hrc i hi hi'
    rw [write_slot_ne (by omega)]
    exact h.shifted hrc i hi hi'
  limit := h.limit
  block := h.block

theorem wp_avPop (h : Represents rcStack av l) :
    wp avPop av (fun x av' => x = l.getLast?.join ∧ Represents rcStack av' l.dropLast) E := by
  rw [avPop, wp_bind, wp_get, wp_ite]
  refine ⟨fun hempty => ?_, fun hfull => ?_⟩
  · have hnil := h.nil hempty
    subst hnil
    exact ⟨rfl, h⟩
  · have hfill : 0 ≤ av.fill := Int.not_lt.1 hfull
    obtain ⟨b, x, hb, hin, hget, hslot, hplace⟩ := h.inside hfill (Int.le_refl _)
    have hstart := hin.start
    have hlast : l.getLast?.join = x := by
      have htop := h.top
      rw [List.getLast?_eq_getElem?]
      have hnat : l.length - 1 = av.fill.toNat := by omega
      rw [hnat, hget]
      rfl
    rw [wp_bind, wp_readSlot hb hslot (by omega) hplace, wp_bind,
      wp_writeSlot hb (by omega) hplace, wp_bind, wp_setFill, wp_pure]
    exact ⟨hlast.symm, inBlock_iff.2 (inBlock_dropLast hin hfill)⟩

theorem inBlock_dropHole (h : InBlock rcStack b array max fill (l ++ [none])) :
    InBlock rcStack b array max (fill - 1) l where
  start := h.start
  size := h.size
  top := by
    have htop := h.top
    rw [List.length_append, List.length_singleton] at htop
    omega
  room := by
    have hroom := h.room
    omega
  items := by
    intro i x hx
    apply h.items i x
    rw [List.getElem?_append_left (lt_length_of_getElem? hx), hx]
  above := by
    intro i hi hi'
    have htop := h.top
    rw [List.length_append, List.length_singleton] at htop
    by_cases heq : i = fill
    · have hlast := h.items l.length none List.getElem?_concat_length
      have hplace : (l.length : Int) = i := by omega
      rwa [hplace] at hlast
    · exact h.above i (by omega) hi'
  shifted := h.shifted
  limit := h.limit
  block := h.block

theorem wp_dropHoles {k : Nat} (h : InBlock rcStack b array max (k - 1) l) :
    wp (dropHoles k) ⟨some b, array, max, k⟩
      (fun _ av' => Represents rcStack av' (l.rdropWhile Option.isNone)) E := by
  induction k generalizing l with
  | zero =>
    have htop := h.top
    have hnil : l = [] := List.eq_nil_of_length_eq_zero (by omega)
    subst hnil
    rw [dropHoles, wp_bind, wp_get, wp_setFill, List.rdropWhile_nil]
    exact inBlock_iff.2 h
  | succ k ih =>
    have htop := h.top
    have hsize := h.size
    have hroom := h.room
    have hstart := h.start
    obtain ⟨front, x, rfl⟩ : ∃ front x, l = front ++ [x] := by
      rcases List.eq_nil_or_concat l with rfl | ⟨front, x, rfl⟩
      · rw [List.length_nil] at htop
        omega
      · exact ⟨front, x, List.concat_eq_append⟩
    rw [List.length_append, List.length_singleton] at htop
    have hget : (front ++ [x])[k]? = some x := by
      have hk : k = front.length := by omega
      rw [hk]
      exact List.getElem?_concat_length
    have hslot := h.items k x hget
    rw [dropHoles, wp_bind, wp_get, wp_bind, wp_setFill, wp_bind, wp_get, wp_bind,
      wp_readSlot rfl hslot (by omega) (by omega)]
    have hfill : ((k + 1 : Nat) : Int) - 1 = k := by omega
    rw [hfill] at h
    dsimp only
    rw [hfill]
    cases x with
    | some x =>
      rw [List.rdropWhile_concat_neg _ _ _ (by simp)]
      exact inBlock_iff.2 h
    | none =>
      rw [List.rdropWhile_concat_pos _ _ _ rfl]
      exact ih (inBlock_dropHole h)

theorem wp_avDelete (h : Represents rcStack av l) (key : Int64) :
    wp (avDelete key.toInt) av
      (fun x av' => (seqStep (.delete key) l).1 = .ok (.element x) ∧
        Represents rcStack av' (seqStep (.delete key) l).2) E := by
  have hlow := key.le_toInt
  have htop := h.top
  rw [avDelete, wp_bind, wp_adjustKey h (by rw [ssizeMax]; omega), wp_bind, wp_get, wp_ite]
  simp only [seqStep]
  generalize indexOf l key.toInt = i
  refine ⟨fun hneg => ?_, fun hpos => ?_⟩
  · rw [if_pos hneg]
    exact ⟨rfl, h⟩
  · rw [if_neg hpos, wp_ite]
    refine ⟨fun hout => ?_, fun hin => ?_⟩
    · rw [if_pos (by omega)]
      exact ⟨rfl, h⟩
    · rw [if_neg (by omega)]
      obtain ⟨b, x, hb, hblock, hget, hslot, hplace⟩ := h.inside (Int.not_lt.1 hpos)
        (Int.not_lt.1 hin)
      have hstart := hblock.start
      have hroom := hblock.room
      rw [wp_bind, wp_readSlot hb hslot (by omega) hplace, wp_bind,
        wp_writeSlot hb (by omega) hplace, wp_bind, trimEnd, wp_ite, hget, without]
      refine ⟨fun hlast => ?_, fun hinner => ?_⟩
      · have hdrop := inBlock_dropLast hblock (by omega)
        have hfill : ((av.fill.toNat : Nat) : Int) = av.fill := Int.toNat_of_nonneg (by omega)
        rw [← hfill] at hdrop
        rw [if_pos (by omega), hlast]
        have htrim := wp_dropHoles hdrop (E := E)
        rw [hfill] at htrim
        have htake : l.take av.fill.toNat = l.dropLast := by
          rw [List.dropLast_eq_take]
          congr
          omega
        rw [htake]
        apply wp_mono htrim
        · intro _ av' hav'
          exact ⟨rfl, hav'⟩
        · exact fun _ _ he => he
      · rw [if_neg (by omega), wp_pure, wp_pure]
        refine ⟨rfl, inBlock_iff.2 ?_⟩
        have hput := inBlock_put hblock (Int.not_lt.1 hpos) (by omega) none
        rw [put_of_lt (by omega), Int.max_eq_left (by omega)] at hput
        exact hput

theorem inBlock_tail (h : InBlock rcStack b array max fill l) (hfill : 0 ≤ fill)
    {b' : Block (Option α)} (hsize : b'.size = b.size)
    (hfirst : rcStack = false → b'.slot array = .held none)
    (hrest : ∀ i, i ≠ array → b'.slot i = b.slot i) :
    InBlock rcStack b' (array + 1) (max - 1) (fill - 1) l.tail where
  start := by
    have hstart := h.start
    omega
  size := by
    have hsize := h.size
    omega
  top := by
    have htop := h.top
    rw [List.length_tail]
    omega
  room := by
    have hroom := h.room
    omega
  items := by
    intro i x hx
    rw [List.getElem?_tail] at hx
    have hplace : array + 1 + (i : Int) = array + ((i + 1 : Nat) : Int) := by omega
    rw [hplace, hrest _ (by omega)]
    exact h.items (i + 1) x hx
  above := by
    intro i hi hi'
    have hplace : array + 1 + i = array + (i + 1) := by omega
    rw [hplace, hrest _ (by omega)]
    exact h.above (i + 1) (by omega) (by omega)
  shifted := by
    intro hrc i hi hi'
    by_cases heq : i = array
    · rw [heq]
      exact hfirst hrc
    · rw [hrest i heq]
      exact h.shifted hrc i hi (by omega)
  limit := by
    rw [hsize]
    exact h.limit
  block := by
    rw [hsize]
    exact h.block

theorem wp_avShift (h : Represents rcStack av l) :
    wp (avShift rcStack) av (fun x av' => x = l.head?.join ∧ Represents rcStack av' l.tail) E := by
  rw [avShift, wp_bind, wp_get, wp_ite]
  refine ⟨fun hempty => ?_, fun hfull => ?_⟩
  · have hnil := h.nil hempty
    subst hnil
    exact ⟨rfl, h⟩
  · have hfill : 0 ≤ av.fill := Int.not_lt.1 hfull
    obtain ⟨b, x, hb, hin, hget, hslot, hplace⟩ := h.inside (Int.le_refl 0) hfill
    rw [Int.add_zero] at hslot hplace
    have hstart := hin.start
    have hhead : l.head?.join = x := by
      rw [List.head?_eq_getElem?]
      rw [Int.toNat_zero] at hget
      rw [hget]
      rfl
    rw [wp_bind, wp_readSlot hb hslot (by omega) hplace, wp_bind, nullFirst, wp_ite]
    refine ⟨fun hrc => ?_, fun hrc => ?_⟩
    · rw [wp_pure, wp_bind, wp_setArray, wp_bind, wp_setMax, wp_bind, wp_setFill, wp_pure]
      refine ⟨hhead.symm, ?_⟩
      rw [hb]
      apply inBlock_iff.2
      apply inBlock_tail hin hfill rfl
      · intro hno
        rw [hrc] at hno
        cases hno
      · exact fun _ _ => rfl
    · rw [wp_writeSlot hb (by omega) hplace, wp_bind, wp_setArray, wp_bind, wp_setMax, wp_bind,
        wp_setFill, wp_pure]
      have hsize : (b.write av.array none).size = b.size := rfl
      exact ⟨hhead.symm, inBlock_iff.2 (inBlock_tail hin hfill hsize
        (fun _ => write_slot_self) (fun i hi => write_slot_ne hi))⟩

theorem inBlock_back (h : InBlock rcStack b array max fill l) (hcount : count ≤ array)
    {b' : Block (Option α)} (hsize : b'.size = b.size)
    (hnull : ∀ i, array - count ≤ i → i < array → b'.slot i = .held none)
    (hrest : ∀ i, i < array - count ∨ array ≤ i → b'.slot i = b.slot i) :
    InBlock rcStack b' (array - count) (max + count) (fill + count)
      (List.replicate count none ++ l) where
  start := by omega
  size := by
    have hsize := h.size
    omega
  top := by
    have htop := h.top
    rw [List.length_append, List.length_replicate]
    omega
  room := by
    have hroom := h.room
    omega
  items := by
    intro i x hx
    rw [List.getElem?_append, List.length_replicate] at hx
    by_cases hi : i < count
    · rw [if_pos hi, List.getElem?_replicate, if_pos hi] at hx
      rw [← Option.some.inj hx]
      exact hnull _ (by omega) (by omega)
    · rw [if_neg hi] at hx
      have hplace : array - count + (i : Int) = array + ((i - count : Nat) : Int) := by omega
      rw [hplace, hrest _ (by omega)]
      exact h.items (i - count) x hx
  above := by
    intro i hi hi'
    have hplace : array - count + i = array + (i - count) := by omega
    have htop := h.top
    rw [hplace, hrest _ (by omega)]
    exact h.above (i - count) (by omega) (by omega)
  shifted := by
    intro hrc i hi hi'
    rw [hrest i (by omega)]
    exact h.shifted hrc i hi (by omega)
  limit := by
    rw [hsize]
    exact h.limit
  block := by
    rw [hsize]
    exact h.block

theorem wp_takeBack (h : InBlock rcStack b array max fill l) {num : Int} (hnum : 0 < num)
    {Q : Int → Av α → Prop}
    (hQ : ∀ (count : Nat) b', (count : Int) ≤ num → (count : Int) ≤ array →
      (count : Int) = num ∨ (count : Int) = array →
      InBlock rcStack b' (array - count) (max + count) (fill + count)
        (List.replicate count none ++ l) → (array = 0 → b' = b) →
      Q (num - count) ⟨some b', array - count, max + count, fill + count⟩) :
    wp (takeBack rcStack num) ⟨some b, array, max, fill⟩ Q E := by
  have hstart := h.start
  have hsize := h.size
  have htop := h.top
  have hroom := h.room
  rw [takeBack, wp_bind, wp_get]
  dsimp only
  rw [wp_ite]
  refine ⟨fun hzero => ?_, fun hshift => ?_⟩
  · have hsame := hQ 0 b (by omega) (by omega) (Or.inr (by omega))
    rw [Int.ofNat_zero, Int.sub_zero, Int.sub_zero, Int.add_zero, Int.add_zero,
      List.replicate_zero, List.nil_append] at hsame
    exact hsame h (fun _ => rfl)
  · obtain ⟨count, hcount⟩ : ∃ count : Nat, (if array > num then num else array) = count :=
      ⟨_, (Int.toNat_of_nonneg (by split <;> omega)).symm⟩
    have hbounds : (count : Int) ≤ num ∧ (count : Int) ≤ array ∧
        ((count : Int) = num ∨ (count : Int) = array) := by
      rw [← hcount]
      split <;> omega
    obtain ⟨hle, hle', hwhich⟩ := hbounds
    rw [hcount, wp_bind, wp_setMax, wp_bind, wp_setFill, wp_bind, wp_setArray, wp_bind, zeroShifted,
      wp_ite]
    refine ⟨fun hrc => ?_, fun hrc => ?_⟩
    · rw [wp_zeroSlots rfl (by omega) (by omega) (by omega), wp_pure]
      have hsize' : (b.fill (array - count) count none).size = b.size := rfl
      exact hQ count _ hle hle' hwhich (inBlock_back h hle' hsize'
        (fun i hi hi' => fill_slot_in hi (by omega))
        (fun i hi => fill_slot_out (by omega))) (fun hzero => absurd hzero hshift)
    · have hoff : rcStack = false := Bool.eq_false_iff.2 hrc
      rw [wp_pure, wp_pure]
      exact hQ count b hle hle' hwhich (inBlock_back h hle' rfl
        (fun i hi hi' => h.shifted hoff i (by omega) hi') (fun _ _ => rfl)) (fun _ => rfl)

theorem wp_nullDown {num : Nat} (hstart : 0 ≤ array) (hend : array + num ≤ b.size)
    {start max fill : Int} {Q : Unit → Av α → Prop}
    (hQ : Q () ⟨some (b.fill array num none), start, max, fill⟩) :
    wp (nullDown array num) ⟨some b, start, max, fill⟩ Q E := by
  induction num generalizing b with
  | zero =>
    rw [Int.ofNat_zero, fill_zero] at hQ
    exact hQ
  | succ num ih =>
    rw [nullDown, wp_bind, wp_writeSlot rfl (by omega) (by omega)]
    apply ih
    · rw [write_size]
      omega
    · rw [write_fill (by omega) (by omega)]
      exact hQ

theorem inBlock_slid (h : InBlock rcStack b array max fill l) {slide : Int}
    (hslide : 0 ≤ slide) (hcount : 0 < count) (hroom : fill + (count + slide) ≤ max) :
    InBlock rcStack ((b.move array (array + (count + slide)) (fill + 1)).fill array
      (count + slide) none) (array + slide) (max - slide) (fill + count)
      (List.replicate count none ++ l) where
  start := by
    have hstart := h.start
    omega
  size := by
    have hsize := h.size
    rw [fill_size, move_size]
    omega
  top := by
    have htop := h.top
    rw [List.length_append, List.length_replicate]
    omega
  room := by omega
  items := by
    intro i x hx
    rw [List.getElem?_append, List.length_replicate] at hx
    have htop := h.top
    by_cases hi : i < count
    · rw [if_pos hi, List.getElem?_replicate, if_pos hi] at hx
      rw [← Option.some.inj hx]
      exact fill_slot_in (by omega) (by omega)
    · rw [if_neg hi] at hx
      have hlt := lt_length_of_getElem? hx
      have hplace : array + (array + slide + (i : Int) - (array + (count + slide))) =
          array + ((i - count : Nat) : Int) := by omega
      rw [fill_slot_out (by omega), move_slot_in (by omega) (by omega), hplace]
      exact h.items (i - count) x hx
  above := by
    intro i hi hi'
    have htop := h.top
    have hplace : array + slide + i = array + (slide + i) := by omega
    rw [fill_slot_out (by omega), move_slot_out (by omega), hplace]
    exact h.above (slide + i) (by omega) (by omega)
  shifted := by
    intro hrc i hi hi'
    by_cases hin : array ≤ i
    · exact fill_slot_in hin (by omega)
    · rw [fill_slot_out (by omega), move_slot_out (by omega)]
      exact h.shifted hrc i hi (by omega)
  limit := h.limit
  block := h.block

/-- The sums of `av_unshift` for `left` slots that are not taken back fit, and the index that it
extends to has a block. -/
def RoomFor (av : Av α) (left : Int) : Prop :=
  left + Max.max av.fill 0 ≤ ssizeMax ∧ av.fill + (left + Max.max av.fill 0) ≤ ssizeMax ∧
    Extends av (av.fill + (left + Max.max av.fill 0))

theorem wp_makeRoom (h : Represents rcStack av l) (hcount : 0 < count)
    (hroom : RoomFor av count) :
    wp (makeRoom count) av
      (fun _ av' => Represents rcStack av' (List.replicate count none ++ l))
      (fun e av' => av' = av ∧ MemoryCroak e ∧ av.max < av.fill + (count + Max.max av.fill 0) ∧
        maxSlots < av.fill + (count + Max.max av.fill 0) + av.max.tdiv 5 + 1) := by
  obtain ⟨hsum, hindex, hext⟩ := hroom
  have hslide : (if av.fill > 0 then av.fill else 0) = Max.max av.fill 0 := by
    split <;> omega
  have htop := h.top
  rw [ssizeMax] at hsum hindex
  rw [makeRoom, wp_bind, wp_get]
  dsimp only
  rw [hslide, wp_bind, wp_ssize (by rw [ssizeMax]; omega), wp_bind,
    wp_ssize (by rw [ssizeMax]; omega), wp_bind]
  apply wp_mono (wp_avExtend h (by omega) (by rw [ssizeMax]; omega) hext)
  · intro _ av' hav'
    obtain ⟨h', hmax, hfill⟩ := hav'
    obtain ⟨alloc, array, max, fill⟩ := av'
    dsimp only at hmax hfill
    subst hfill
    cases alloc with
    | none =>
      obtain ⟨-, hmax', -⟩ := represents_none.1 h'
      omega
    | some b =>
      have hin := inBlock_iff.1 h'
      have hstart := hin.start
      have hsize := hin.size
      generalize hs : Max.max av.fill 0 = slide at *
      rw [wp_bind, wp_setFill, wp_bind, wp_get, wp_bind,
        wp_moveSlots rfl (by omega) (by dsimp only; omega) (by omega) (by dsimp only; omega)
          (by dsimp only; omega), wp_bind]
      have hnat : (((count : Int) + slide).toNat : Int) = count + slide := by omega
      apply wp_nullDown hstart (by rw [move_size]; omega)
      rw [wp_bind, wp_get, wp_bind, wp_setMax, wp_bind, wp_setFill, wp_setArray, hnat]
      have hslid := inBlock_slid hin (by omega : 0 ≤ slide) hcount (by omega)
      have hend : av.fill + (count + slide) - slide = av.fill + count := by omega
      dsimp only
      rw [hend]
      exact inBlock_iff.2 hslid
  · exact fun _ _ he => he

end XPerl.Arrays
