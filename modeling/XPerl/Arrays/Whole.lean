import XPerl.Arrays.Ends

/-! The calls on a whole array, and runs of all calls. -/

namespace XPerl.Arrays

open XPerl.Framework.Exec XPerl.Framework.Slots

variable {α : Type} {rcStack : Bool} {b : Block (Option α)} {array max fill : Int}
  {l : List (Option α)}

/-- What `av_unshift` needs: enough shifted slots, or sums that fit and a block for what is left. -/
def UnshiftFits (av : Av α) (num : Int) : Prop :=
  num ≤ av.array ∨
    (num - av.array + Max.max (av.fill + av.array) 0 ≤ ssizeMax ∧
      av.fill + av.array + (num - av.array + Max.max (av.fill + av.array) 0) ≤ ssizeMax ∧
      Extends av (av.fill + av.array + (num - av.array + Max.max (av.fill + av.array) 0)))

variable {av : Av α}

theorem wp_avUnshift (h : Represents rcStack av l) (num : Int64)
    (hfits : UnshiftFits av num.toInt) :
    wp (avUnshift rcStack num.toInt) av
      (fun _ av' => Represents rcStack av' (List.replicate num.toInt.toNat none ++ l))
      (Refused rcStack (wanted (.unshift num) l) l) := by
  rw [wanted]
  generalize num.toInt = num at *
  rw [avUnshift, wp_ite]
  refine ⟨fun hnone => ?_, fun hsome => ?_⟩
  · rw [Int.toNat_of_nonpos hnone]
    exact h
  · have hnum : 0 < num := Int.not_le.1 hsome
    have htop := h.top
    obtain ⟨count, rfl⟩ := Int.eq_ofNat_of_zero_le (Int.le_of_lt hnum)
    rw [Int.toNat_natCast]
    obtain ⟨alloc, array, max, fill⟩ := av
    rw [UnshiftFits] at hfits
    dsimp only at hfits htop
    cases alloc with
    | none =>
      obtain ⟨rfl, rfl, rfl, rfl⟩ := represents_none.1 h
      have hroom : RoomFor (⟨none, 0, -1, -1⟩ : Av α) count := by
        have hfits := hfits.resolve_left (by omega)
        simpa [RoomFor] using hfits
      rw [wp_bind, takeBack, wp_bind, wp_get]
      dsimp only
      rw [if_pos rfl, wp_pure, if_pos (by omega)]
      apply wp_mono (wp_makeRoom h (by omega) hroom)
      · exact fun _ _ hav' => hav'
      · intro e av' he
        obtain ⟨rfl, hcroak, hless, hover⟩ := he
        have hdiv : (-1 : Int).tdiv 5 = 0 := by decide
        dsimp only at hover
        rw [hdiv, maxSlots] at hover
        exact ⟨hcroak, by rw [List.length_nil]; omega, h⟩
    | some b =>
      have hin := inBlock_iff.1 h
      rw [wp_bind]
      apply wp_takeBack hin hnum
      intro back b' hle hle' hwhich hback hsame
      rw [wp_ite]
      refine ⟨fun hleft => ?_, fun hdone => ?_⟩
      · have hall : (back : Int) = array := by omega
        obtain ⟨left, hleft'⟩ := Int.eq_ofNat_of_zero_le (by omega : 0 ≤ (count : Int) - back)
        have hsplit : count = left + back := by omega
        have hfits := hfits.resolve_left (by omega)
        rw [← hall] at hfits
        have hzero : array - back = 0 := by omega
        rw [hzero] at hback ⊢
        rw [hleft'] at hfits ⊢
        obtain ⟨hsum, hindex, hext⟩ := hfits
        have hext' : Extends (⟨some b', 0, max + back, fill + back⟩ : Av α)
            (fill + back + (left + Max.max (fill + back) 0)) := Or.inr (Or.inr ⟨rfl, rfl⟩)
        apply wp_mono (wp_makeRoom (inBlock_iff.2 hback) (by omega) ⟨hsum, hindex, hext'⟩)
        · intro _ av' hav'
          rw [hsplit, ← List.replicate_append_replicate, List.append_assoc]
          exact hav'
        · intro e av' he
          obtain ⟨rfl, hcroak, hless, hover⟩ := he
          dsimp only at hless hover
          have hmax : 0 ≤ max + back := by
            have hpos := hback.block
            have hsize := hback.size
            omega
          rw [Int.tdiv_eq_ediv_of_nonneg hmax, maxSlots] at hover
          rw [Extends] at hext
          rcases hext with hext | hext | hext
          · dsimp only at hext
            omega
          · dsimp only at hext
            rw [Int.add_comm (back : Int) max, Int.tdiv_eq_ediv_of_nonneg hmax, maxSlots] at hext
            omega
          · have hback0 : (back : Int) = 0 := hext.2
            have hb : b' = b := hsame (by omega)
            have hnat : back = 0 := by omega
            subst hnat
            rw [hb]
            refine ⟨hcroak, by omega, ?_⟩
            rw [List.replicate_zero, List.nil_append, hb] at hback
            exact inBlock_iff.2 hback
      · rw [wp_pure]
        have hnat : back = count := by omega
        rw [← hnat]
        exact inBlock_iff.2 hback

theorem wp_releaseDown {count : Nat} {key : Int}
    (hslots : ∀ i, key - count < i → i ≤ key → ∃ x, b.slot (array + i) = .held x)
    (hlow : 0 ≤ array + (key - count) + 1) (hhigh : array + key < b.size) {start : Int}
    {Q : Unit → Av α → Prop} {E : Stop → Av α → Prop}
    (hQ : Q () ⟨some (b.fill (array + (key - count) + 1) count none), start, max, fill⟩) :
    wp (releaseDown array count key) ⟨some b, start, max, fill⟩ Q E := by
  induction count generalizing b key with
  | zero =>
    rw [Int.ofNat_zero, Block.fill_zero] at hQ
    exact hQ
  | succ count ih =>
    obtain ⟨x, hx⟩ := hslots key (by omega) (Int.le_refl key)
    rw [releaseDown, wp_bind, wp_readSlot rfl hx (by omega) hhigh, wp_bind,
      wp_writeSlot rfl (by omega) hhigh]
    apply ih
    · intro i hi hi'
      rw [Block.write_slot_ne (by omega)]
      exact hslots i (by omega) (by omega)
    · omega
    · rw [Block.write_size]
      omega
    · have hfirst : array + (key - 1 - count) + 1 = array + (key - (count + 1 : Nat)) + 1 := by
        omega
      rw [hfirst, Block.write_fill (by omega) (by omega)]
      exact hQ

theorem inBlock_resized (h : InBlock rcStack b array max fill l) {top : Int} (htop : -1 ≤ top)
    (hmax : top ≤ max) :
    InBlock rcStack (b.fill (array + (fill - (fill - top).toNat) + 1) (fill - top).toNat none)
      array max top (resized l (top + 1).toNat) where
  start := h.start
  size := h.size
  top := by
    rw [length_resized]
    omega
  room := hmax
  items := by
    intro i x hx
    have hend := h.top
    rw [getElem?_resized] at hx
    by_cases hi : i < (top + 1).toNat
    · rw [if_pos hi] at hx
      rw [Block.fill_slot_out (by omega)]
      by_cases hlt : i < l.length
      · rw [if_pos hlt] at hx
        exact h.items i x hx
      · rw [if_neg hlt] at hx
        rw [← Option.some.inj hx]
        exact h.above i (by omega) (by omega)
    · rw [if_neg hi] at hx
      cases hx
  above := by
    intro i hi hi'
    by_cases hin : i ≤ fill
    · exact Block.fill_slot_in (by omega) (by omega)
    · rw [Block.fill_slot_out (by omega)]
      exact h.above i (by omega) hi'
  shifted := by
    intro hrc i hi hi'
    have hend := h.top
    rw [Block.fill_slot_out (by omega)]
    exact h.shifted hrc i hi hi'
  limit := h.limit
  block := h.block

theorem InBlock.slot_below (h : InBlock rcStack b array max fill l) {i : Int} (hi : 0 ≤ i)
    (hfill : i ≤ fill) : ∃ x, b.slot (array + i) = .held x := by
  obtain ⟨x, -, hslot⟩ := h.slot_top hi hfill
  exact ⟨x, hslot⟩

theorem wp_avFill (h : Represents rcStack av l) (top : Int64)
    (hext : Extends av top.toInt) :
    wp (avFill top.toInt) av
      (fun _ av' => Represents rcStack av' (resized l (top.toInt + 1).toNat))
      (Refused rcStack (wanted (.fill top) l) l) := by
  have hhigh := top.toInt_lt
  have htop := h.top
  have hroom := h.room
  rw [avFill, wanted]
  generalize top.toInt = key at *
  have hclamp (top : Int) (heq : (if key < 0 then -1 else key) = top) :
      -1 ≤ top ∧ (key + 1).toNat = (top + 1).toNat ∧ (-1 < top → top = key) := by
    split at heq <;> omega
  generalize (if key < 0 then -1 else key) = top at hclamp ⊢
  obtain ⟨hlow, hnat, hsame⟩ := hclamp top rfl
  rw [hnat, wp_bind, wp_get, wp_ite]
  refine ⟨fun hwithin => ?_, fun hbeyond => ?_⟩
  · obtain ⟨alloc, array, max, fill⟩ := av
    dsimp only at hwithin htop hroom ⊢
    cases alloc with
    | none =>
      obtain ⟨rfl, rfl, rfl, rfl⟩ := represents_none.1 h
      have hnone : top = -1 := by omega
      subst hnone
      exact h
    | some b =>
      have hin := inBlock_iff.1 h
      have hstart := hin.start
      have hsize := hin.size
      rw [wp_bind]
      apply wp_releaseDown
      · intro i hi hi'
        exact hin.slot_below (by omega) hi'
      · omega
      · omega
      · exact inBlock_iff.2 (inBlock_resized hin hlow hwithin)
  · have hkey : top = key := hsame (by omega)
    subst hkey
    have hindex : indexOf l top = top := if_neg (by omega)
    have hstore := wp_avStore h (by rw [ssizeMax]; omega) (by rw [ssizeMax]; omega) none hext
    rw [hindex, if_pos (by omega)] at hstore
    rw [wp_bind]
    apply wp_mono hstore
    · intro _ av' hav'
      have hput : put l top.toNat none = resized l (top + 1).toNat := by
        apply List.ext_getElem?
        intro j
        rw [getElem?_put, getElem?_resized]
        by_cases hj : j < l.length
        · rw [if_neg (by omega), if_pos hj, if_pos (by omega), if_pos hj]
        · rw [if_neg hj, if_neg hj]
          split <;> split <;> first | rfl | omega | skip
          · rw [if_pos (by omega)]
          · rw [if_neg (by omega)]
      rw [wp_pure, ← hput]
      exact hav'.2
    · exact fun e av' he => he.2

theorem wp_avClear (h : Represents rcStack av l) {E : Stop → Av α → Prop} :
    wp (avClear rcStack) av (fun _ av' => Represents rcStack av' []) E := by
  obtain ⟨alloc, array, max, fill⟩ := av
  rw [avClear, wp_bind, wp_get, wp_ite]
  refine ⟨fun hempty => ?_, fun hfull => ?_⟩
  · have hroom := h.room
    dsimp only at hroom hempty
    have hnil := h.nil (by dsimp only; omega)
    subst hnil
    exact h
  · cases alloc with
    | none =>
      obtain ⟨-, rfl, -⟩ := represents_none.1 h
      exact absurd (by decide : (-1 : Int) < 0) hfull
    | some b =>
      have hin := inBlock_iff.1 h
      have hstart := hin.start
      have hsize := hin.size
      have htop := hin.top
      have hroom := hin.room
      have hempty := inBlock_resized hin (Int.le_refl (-1)) (by omega)
      have hcount : (fill - -1).toNat = (fill + 1).toNat := by omega
      rw [hcount] at hempty
      rw [wp_bind]
      dsimp only
      apply wp_releaseDown
      · intro i hi hi'
        exact hin.slot_below (by omega) hi'
      · omega
      · omega
      generalize b.fill (array + (fill - (fill + 1).toNat) + 1) (fill + 1).toNat none = b' at *
      rw [wp_bind, wp_setFill, avRemoveOffset, wp_bind, wp_get, wp_ite]
      have hsize' := hempty.size
      have hlen : (resized l (-1 + 1 : Int).toNat) = [] := by
        apply List.eq_nil_of_length_eq_zero
        rw [length_resized]
        rfl
      rw [hlen] at hempty
      refine ⟨fun hshift => ?_, fun hzero => ?_⟩
      · have hrebuilt {b'' : Block (Option α)} (hsame : b''.size = b'.size)
            (hnull : ∀ i, -1 < i → i ≤ max + array → b''.slot i = .held none) :
            Represents rcStack ⟨some b'', 0, max + array, -1⟩ [] := by
          apply inBlock_iff.2
          apply inBlock_rebuilt
          · omega
          · rfl
          · omega
          · intro i x hx
            cases hx
          · exact hnull
          · rw [hsame]
            exact hempty.limit
          · rw [hsame]
            exact hempty.block
        have hback (i : Int) (hi : array ≤ i) (hi' : i ≤ max + array) :
            b'.slot i = .held none := by
          have hslot := hempty.above (i - array) (by omega) (by omega)
          have hplace : array + (i - array) = i := by omega
          rwa [hplace] at hslot
        rw [wp_bind, wp_setArray, wp_bind, wp_setMax, zeroShifted, wp_ite]
        refine ⟨fun hrc => ?_, fun hrc => ?_⟩
        · rw [wp_zeroSlots rfl (Int.le_refl 0) hstart (by omega)]
          have hsame : (b'.fill 0 array none).size = b'.size := rfl
          apply hrebuilt hsame
          intro i hi hi'
          by_cases hin : i < array
          · exact Block.fill_slot_in (by omega) (by omega)
          · rw [Block.fill_slot_out (by omega)]
            exact hback i (by omega) hi'
        · have hoff : rcStack = false := Bool.eq_false_iff.2 hrc
          apply hrebuilt rfl
          intro i hi hi'
          by_cases hin : i < array
          · exact hempty.shifted hoff i (by omega) hin
          · exact hback i (by omega) hi'
      · have hnat : array = 0 := Decidable.not_not.1 hzero
        exact inBlock_iff.2 hempty

/-- The condition of a step: a slot for the index that it extends to, a block that fits, or a
refusal that changes nothing. -/
def Fits (av : Av α) : Op α → Prop
  | .extend key => Extends av key.toInt
  | .store key _ => Extends av key.toInt
  | .fetch key lval => lval = none ∨ Extends av key.toInt
  | .push _ => Extends av (av.fill + 1)
  | .unshift num => UnshiftFits av num.toInt
  | .fill fill => Extends av fill.toInt
  | _ => True

instance (av : Av α) (key : Int) : Decidable (Extends av key) :=
  inferInstanceAs (Decidable (_ ∨ _ ∨ _))

instance (av : Av α) (num : Int) : Decidable (UnshiftFits av num) :=
  inferInstanceAs (Decidable (_ ∨ _))

instance decidableFits (av : Av α) : ∀ op, Decidable (Fits av op)
  | .extend key => inferInstanceAs (Decidable (Extends av key.toInt))
  | .store key _ => inferInstanceAs (Decidable (Extends av key.toInt))
  | .fetch key lval => inferInstanceAs (Decidable (lval = none ∨ Extends av key.toInt))
  | .push _ => inferInstanceAs (Decidable (Extends av (av.fill + 1)))
  | .unshift num => inferInstanceAs (Decidable (UnshiftFits av num.toInt))
  | .fill fill => inferInstanceAs (Decidable (Extends av fill.toInt))
  | .pop => .isTrue trivial
  | .shift => .isTrue trivial
  | .delete _ => .isTrue trivial
  | .clear => .isTrue trivial

theorem wp_avStep (h : Represents rcStack av l) (op : Op α) (hfits : Fits av op) :
    wp (avStep rcStack op) av
      (fun answer av' => (seqStep op l).1 = .ok answer ∧
        Represents rcStack av' (seqStep op l).2)
      (fun e av' => ((seqStep op l).1 = .error e ∧ Represents rcStack av' (seqStep op l).2) ∨
        Refused rcStack (wanted op l) l e av') := by
  cases op with
  | extend key =>
    rw [avStep, wp_map]
    have hhigh := key.toInt_lt
    simp only [seqStep]
    by_cases hneg : key.toInt < -1
    · rw [if_pos hneg, avExtend, wp_bind, wp_throwIf]
      exact ⟨fun _ => Or.inl ⟨rfl, h⟩, fun hno => absurd hneg hno⟩
    · rw [if_neg hneg]
      have htop := h.top
      have hroom := h.room
      apply wp_mono (wp_avExtend h (by omega) (by rw [ssizeMax]; omega) hfits)
      · intro _ av' hav'
        exact ⟨rfl, hav'.1⟩
      · intro e av' he
        obtain ⟨rfl, hcroak, hless, hover⟩ := he
        have hdiv : av'.max.tdiv 5 ≤ key.toInt + 1 := by
          rcases Int.lt_or_le av'.max 0 with hempty | hnonneg
          · have hminus : av'.max = -1 := by omega
            rw [hminus]
            exact Int.le_trans (by decide) (by omega : (0 : Int) ≤ key.toInt + 1)
          · rw [Int.tdiv_eq_ediv_of_nonneg hnonneg]
            omega
        rw [maxSlots] at hover
        exact Or.inr ⟨hcroak, by rw [wanted]; omega, h⟩
  | store key val =>
    have hlow := key.le_toInt
    have hhigh := key.toInt_lt
    rw [avStep, wp_map, wanted]
    simp only [seqStep]
    apply wp_mono (wp_avStore h (by rw [ssizeMax]; omega) (by rw [ssizeMax]; omega) val hfits)
    · intro there av' hav'
      obtain ⟨rfl, hrep⟩ := hav'
      by_cases hneg : indexOf l key.toInt < 0
      · rw [if_neg (Int.not_le.2 hneg)] at hrep
        rw [if_pos hneg, decide_eq_false (Int.not_le.2 hneg)]
        exact ⟨rfl, hrep⟩
      · rw [if_pos (Int.not_lt.1 hneg)] at hrep
        rw [if_neg hneg, decide_eq_true (Int.not_lt.1 hneg)]
        exact ⟨rfl, hrep⟩
    · exact fun e av' he => Or.inr he.2
  | fetch key lval =>
    rw [avStep, wp_map]
    exact wp_mono (wp_avFetch h key lval hfits) (fun _ _ hav' => hav') (fun _ _ he => Or.inr he)
  | push val =>
    rw [avStep, wp_map]
    exact wp_mono (wp_avPush h val hfits) (fun _ _ hav' => ⟨rfl, hav'⟩) (fun _ _ he => Or.inr he)
  | pop =>
    rw [avStep, wp_map]
    apply wp_mono (wp_avPop h (E := fun _ _ => False))
    · intro x av' hav'
      rw [hav'.1]
      exact ⟨rfl, hav'.2⟩
    · exact fun _ _ hfalse => hfalse.elim
  | shift =>
    rw [avStep, wp_map]
    apply wp_mono (wp_avShift h (E := fun _ _ => False))
    · intro x av' hav'
      rw [hav'.1]
      exact ⟨rfl, hav'.2⟩
    · exact fun _ _ hfalse => hfalse.elim
  | unshift num =>
    rw [avStep, wp_map]
    exact wp_mono (wp_avUnshift h num hfits) (fun _ _ hav' => ⟨rfl, hav'⟩)
      (fun _ _ he => Or.inr he)
  | fill top =>
    rw [avStep, wp_map]
    exact wp_mono (wp_avFill h top hfits) (fun _ _ hav' => ⟨rfl, hav'⟩) (fun _ _ he => Or.inr he)
  | delete key =>
    rw [avStep, wp_map]
    apply wp_mono (wp_avDelete h key (E := fun _ _ => False))
    · exact fun _ _ hav' => hav'
    · exact fun _ _ hfalse => hfalse.elim
  | clear =>
    rw [avStep, wp_map]
    apply wp_mono (wp_avClear h (E := fun _ _ => False))
    · exact fun _ _ hav' => ⟨rfl, hav'⟩
    · exact fun _ _ hfalse => hfalse.elim

/-- The contents of an array as they are seen. -/
def contents (av : Av α) : List (Option α) :=
  (List.range (av.fill + 1).toNat).map fun (i : Nat) =>
    match av.slot (av.array + i) with
    | .garbage => none
    | .held x => x

theorem Represents.contents_eq (h : Represents rcStack av l) : contents av = l := by
  have htop := h.top
  have hnat : (av.fill + 1).toNat = l.length := by omega
  apply List.ext_getElem?
  intro i
  rw [contents, hnat, List.getElem?_map]
  by_cases hi : i < l.length
  · have hget := List.getElem?_eq_getElem hi
    rw [List.getElem?_range hi, Option.map_some, h.items i _ hget, hget]
  · rw [List.getElem?_eq_none (by rw [List.length_range]; omega), List.getElem?_eq_none (by omega)]
    rfl

/-- The bounds of an array: its start lies in the block, the block ends at `AvMAX`, elements end
below it, every slot in use was written, and those above are NULL. -/
structure Sound (av : Av α) : Prop where
  start : 0 ≤ av.array
  size : av.allocated = av.array + av.max + 1
  room : -1 ≤ av.fill ∧ av.fill ≤ av.max
  items : ∀ i, 0 ≤ i → i ≤ av.fill → ∃ x, av.slot (av.array + i) = .held x
  above : ∀ i, av.fill < i → i ≤ av.max → av.slot (av.array + i) = .held none

theorem Represents.sound (h : Represents rcStack av l) : Sound av where
  start := h.start
  size := h.size
  room := by
    have htop := h.top
    have hroom := h.room
    omega
  items := by
    intro i hi hfill
    obtain ⟨b, x, hb, -, -, hslot, -⟩ := h.inside hi hfill
    refine ⟨x, ?_⟩
    rw [Av.slot, hb]
    exact hslot
  above := h.above

/-- A step returns and leaves what it does on a sequence, or is refused for a length of 2^59 or
more and leaves the contents as they are; nothing overflows. -/
def Refines (rcStack : Bool) (op : Op α) (av : Av α) : Prop :=
  ((outcome (avStep rcStack op) av = (seqStep op (contents av)).1 ∧
      contents (stateAfter (avStep rcStack op) av) = (seqStep op (contents av)).2) ∨
    ∃ e, outcome (avStep rcStack op) av = .error e ∧ MemoryCroak e ∧
      576460752303423488 ≤ wanted op (contents av) ∧
      contents (stateAfter (avStep rcStack op) av) = contents av) ∧
  outcome (avStep rcStack op) av ≠ .error .overflow

theorem avStep_refines (h : Represents rcStack av l) (op : Op α) (hfits : Fits av op) :
    Refines rcStack op av ∧
      ∃ l', Represents rcStack (stateAfter (avStep rcStack op) av) l' := by
  have hstep := wp_avStep h op hfits
  have hnever {e : Stop} (he : (seqStep op l).1 = .error e) : e ≠ .overflow := by
    intro hover
    subst hover
    cases op <;> simp only [seqStep] at he <;> (repeat' split at he) <;> cases he
  rw [wp_iff] at hstep
  rw [Refines, h.contents_eq]
  cases hrun : outcome (avStep rcStack op) av with
  | ok answer =>
    obtain ⟨hanswer, hrep⟩ := hstep.1 answer hrun
    exact ⟨⟨Or.inl ⟨hanswer.symm, hrep.contents_eq⟩, fun h => by cases h⟩, _, hrep⟩
  | error e =>
    rcases hstep.2 e hrun with ⟨herror, hrep⟩ | ⟨hcroak, hlarge, hrep⟩
    · refine ⟨⟨Or.inl ⟨herror.symm, hrep.contents_eq⟩, ?_⟩, _, hrep⟩
      intro h
      exact hnever herror (Except.error.inj h)
    · refine ⟨⟨Or.inr ⟨e, rfl, hcroak, hlarge, hrep.contents_eq⟩, ?_⟩, _, hrep⟩
      intro h
      rw [Except.error.inj h] at hcroak
      rcases hcroak with hcroak | hcroak <;> cases hcroak

theorem represents_newAv : Represents rcStack (newAv α) [] :=
  represents_none.2 ⟨rfl, rfl, rfl, rfl⟩

/-- In a run whose steps fit, the array is sound throughout, and every step does what it does on
the sequence of its contents. -/
theorem array_refines (rcStack : Bool) (ops : List (Op α))
    (h : Along (avStep rcStack) Fits (newAv α) ops) :
    Sound (run (avStep rcStack) (newAv α) ops) ∧
      ∀ before op after, ops = before ++ op :: after →
        Sound (run (avStep rcStack) (newAv α) before) ∧
          Refines rcStack op (run (avStep rcStack) (newAv α) before) := by
  have hreached {ops : List (Op α)} (h : Along (avStep rcStack) Fits (newAv α) ops) :
      ∃ l, Represents rcStack (run (avStep rcStack) (newAv α) ops) l := by
    apply run_invariant (I := fun av => ∃ l, Represents rcStack av l) _ ⟨[], represents_newAv⟩ h
    intro av op hav hfits
    obtain ⟨l, hav⟩ := hav
    exact (avStep_refines hav op hfits).2
  constructor
  · obtain ⟨l, hrep⟩ := hreached h
    exact hrep.sound
  · intro before op after hops
    subst hops
    obtain ⟨hbefore, hfits, -⟩ := along_append.1 h
    obtain ⟨l, hrep⟩ := hreached hbefore
    exact ⟨hrep.sound, (avStep_refines hrep op hfits).1⟩

/-- A queue that moves through its block and back. -/
theorem array_refines_queue :
    Sound (run (avStep false) (newAv Nat) [.push (some 1), .push (some 2), .shift, .unshift 3,
        .delete 3, .fetch 6 (some 7)]) ∧
      contents (run (avStep false) (newAv Nat) [.push (some 1), .push (some 2), .shift, .unshift 3,
        .delete 3, .fetch 6 (some 7)]) = [none, none, none, none, none, none, some 7] :=
  ⟨(array_refines false [.push (some 1), .push (some 2), .shift, .unshift 3, .delete 3,
    .fetch 6 (some 7)] (by decide)).1, by decide⟩

/-- A store that is refused for its size moves the elements of a shifted array, and gives an array
without a block an end. -/
theorem refused_store_moves_elements :
    contents (run (avStep false) (newAv Nat) [.push (some 1), .push (some 2), .push (some 3),
        .shift]) = [some 2, some 3] ∧
      contents (run (avStep false) (newAv Nat) [.push (some 1), .push (some 2), .push (some 3),
        .shift, .store 0x2000000000000000 (some 4)]) = [some 3, some 3] ∧
      ¬ Refines false (.store 0x2000000000000000 (some 4)) (run (avStep false) (newAv Nat)
        [.push (some 1), .push (some 2), .push (some 3), .shift]) ∧
      ¬ Sound (run (avStep false) (newAv Nat) [.store 0x2000000000000000 (some 1)]) := by
  have hbefore : contents (run (avStep false) (newAv Nat) [.push (some 1), .push (some 2),
      .push (some 3), .shift]) = [some 2, some 3] := by decide
  have hafter : contents (stateAfter (avStep false (.store 0x2000000000000000 (some 4)))
      (run (avStep false) (newAv Nat) [.push (some 1), .push (some 2), .push (some 3), .shift])) =
        [some 3, some 3] := by decide
  refine ⟨hbefore, hafter, ?_, ?_⟩
  · intro hrefines
    rcases hrefines.1 with ⟨hanswer, -⟩ | ⟨e, -, -, -, hsame⟩
    · cases hanswer
    · rw [hbefore, hafter] at hsame
      exact absurd hsame (by decide)
  · intro hsound
    exact absurd hsound.size (by decide)

end XPerl.Arrays
