import XPerl.InversionList.Ranges

/-! A range added in place: each edit of the array against what it should become. -/

namespace XPerl.InversionList

open XPerl.Framework.Switches

variable {l l' : Invlist} {o : Bool} {xs ys zs as ms bs : List Nat}
  {junk k m n start stop v z : Nat} {iE : Int}

theorem drop_eq_cons (h : m < ys.length) : ys.drop m = ys.getD m 0 :: ys.drop (m + 1) := by
  rw [List.getD_eq_getElem _ _ h, ← List.drop_eq_getElem_cons h]

theorem take_set_of_le (h : n ≤ k) (x : Nat) : (ys.set k x).take n = ys.take n := by
  rw [List.take_set, List.set_eq_of_length_le]
  rw [List.length_take]
  omega

theorem drop_set_succ (k x : Nat) : (ys.set k x).drop (k + 1) = ys.drop (k + 1) :=
  List.drop_set_of_lt (Nat.lt_succ_self k)

theorem drop_set_self (h : k < ys.length) (x : Nat) :
    (ys.set k x).drop k = x :: ys.drop (k + 1) := by
  rw [drop_eq_cons (by rw [List.length_set]; exact h), drop_set_succ,
    List.getD_eq_getElem _ _ (by rw [List.length_set]; exact h), List.getElem_set_self]

theorem getD_set_of_ne {i : Nat} (h : k ≠ i) (x : Nat) : (ys.set k x).getD i 0 = ys.getD i 0 := by
  rw [List.getD_eq_getElem?_getD, List.getElem?_set_ne h, ← List.getD_eq_getElem?_getD]

theorem set_two (us ts : List Nat) (c d a b : Nat) :
    ((us ++ [c, d] ++ ts).set us.length a).set (us.length + 1) b = us ++ a :: b :: ts := by
  rw [List.append_assoc, List.set_append_right _ _ le_rfl, Nat.sub_self,
    List.set_append_right _ _ (Nat.le_add_right _ 1), Nat.add_sub_cancel_left]
  rfl

theorem take_two_more (h : k + 2 ≤ zs.length) :
    zs.take (k + 2) = zs.take k ++ [zs.getD k 0, zs.getD (k + 1) 0] := by
  rw [List.take_add, drop_eq_cons (by omega), drop_eq_cons (by omega)]
  rfl

theorem splice_spec (h : Stores l o xs) (hk : k ≤ xs.length) (junk start stop : Nat) :
    ∃ l', l.spliceInNewRange junk xs.length (k - 1) start stop = .ok l' ∧
      Stores l' o (xs.take k ++ start :: uvSucc stop :: xs.drop k) := by
  have hhidden := length_hidden_le o
  obtain ⟨hlaid, hroom, hcur⟩ := h.toLaid.extend junk (xs.length + 2)
  have hstores : Stores (l.extend junk (xs.length + 2)) o xs := ⟨hlaid, hcur.trans h.cur⟩
  obtain ⟨a, b, hmore⟩ := hlaid.two_more (by omega)
  obtain ⟨rest, hslots⟩ := hmore.slots
  have htake : (l.extend junk (xs.length + 2)).slots.take ((hidden o).length + (k + 2)) =
      hidden o ++ (xs ++ [a, b]).take (k + 2) := by
    rw [hslots, List.append_assoc, List.take_length_add_append,
      List.take_append_of_le_length (by simpa using hk)]
  obtain ⟨l₁, hmove, hlaid₁⟩ := hstores.move hk (by omega) htake
  obtain ⟨us, c, d, hus, hcd⟩ : ∃ us c d, us.length = k ∧
      (xs ++ [a, b]).take (k + 2) = us ++ [c, d] := by
    have hlength : k + 2 ≤ (xs ++ [a, b]).length := by simpa using hk
    refine ⟨_, _, _, ?_, take_two_more hlength⟩
    rw [List.length_take]
    omega
  have husxs : us = xs.take k := by
    have hcut := congrArg (List.take k) hcd
    rw [List.take_take, Nat.min_eq_left (by omega), List.take_append_of_le_length hk,
      List.take_left' hus] at hcut
    exact hcut.symm
  rw [hcd] at hlaid₁
  have hlength : (us ++ [c, d] ++ xs.drop k).length = xs.length + 2 := by
    rw [List.length_append, List.length_append, List.length_drop, hus]
    simp only [List.length_cons, List.length_nil]
    omega
  obtain ⟨l₂, hwrite₂, hlaid₂, -⟩ := hlaid₁.write (i := (k : Int) - 1 + 1) (by omega) (by omega)
    start
  obtain ⟨l₃, hwrite₃, hlaid₃, -⟩ := hlaid₂.write (i := (k : Int) - 1 + 2) (by omega)
    (by rw [List.length_set]; omega) (uvSucc stop)
  rw [show ((k : Int) - 1 + 1).toNat = us.length by omega,
    show ((k : Int) - 1 + 2).toNat = us.length + 1 by omega, set_two, husxs] at hlaid₃
  have hall := hlaid₃.setLen_all (by rw [List.length_append, List.length_cons]; omega)
  have hsize : (xs.take k ++ start :: uvSucc stop :: xs.drop k).length = xs.length + 2 := by
    rw [List.length_append, List.length_take, List.length_cons, List.length_cons, List.length_drop]
    omega
  rw [hsize] at hall
  have hmove' : (l.extend junk (xs.length + 2)).move ((k : Int) - 1 + 1) ((k : Int) - 1 + 3)
      ((xs.length : Int) - ((k : Int) - 1) - 1) = .ok l₁ := by
    rw [← hmove]
    congr 1 <;> omega
  rw [Invlist.spliceInNewRange, bind_ok hmove', bind_ok hwrite₂, bind_ok hwrite₃, hlaid₃.isOffset]
  exact ⟨_, rfl, hall⟩

theorem adjustEnd_spec (h : Stores l o ys) (hstop : stop < uvMax) (hn : n % 2 = 1) (hnm : n ≤ m)
    (hm : m ≤ ys.length) (hgap : m % 2 = 0 → m < ys.length ∧ start ≤ ys.getD (m - 1) 0) :
    ∃ l' zs, ∃ k : Nat, l.adjustEnd (m - 1) start stop = .ok (l', (k : Int) - 1) ∧ Stores l' o zs ∧
      k % 2 = 1 ∧ n ≤ k ∧ k ≤ zs.length ∧ zs.length = ys.length ∧ zs.take n = ys.take n ∧
      zs.drop k = after m (ys.drop m) stop := by
  rw [Invlist.adjustEnd]
  rcases Nat.mod_two_eq_zero_or_one m with heven | hodd
  · obtain ⟨hlt, hle⟩ := hgap heven
    have habove : l.read ((m : Int) - 1 + 1) = .ok (ys.getD m 0) := by
      rw [Int.sub_add_cancel]
      exact h.read_nat hlt
    have hfinal : l.read ((m : Int) - 1) = .ok (ys.getD (m - 1) 0) := by
      rw [h.read (by omega) (by omega), show ((m : Int) - 1).toNat = m - 1 by omega]
    rw [if_neg (not_matches (by omega)), bind_ok habove]
    by_cases hadjoins : uvSucc stop = ys.getD m 0
    · obtain ⟨l', hwrite, hstores⟩ := h.write (i := (m : Int) - 1 + 1) (by omega) (by omega) start
      rw [show ((m : Int) - 1 + 1).toNat = m by omega] at hstores
      refine ⟨l', _, m + 1, ?_, hstores, by omega, by omega, ?_, List.length_set,
        take_set_of_le hnm start, ?_⟩
      · rw [if_pos hadjoins, bind_ok hwrite, Int.natCast_add, Int.natCast_one]
        congr 2
        omega
      · rw [List.length_set]
        omega
      · rw [drop_set_succ, after, if_neg (by omega), drop_eq_cons hlt, if_pos (by
          rw [List.head?_cons, hadjoins]), List.tail_cons]
    · obtain ⟨l', hwrite, hstores⟩ := h.write (i := (m : Int) - 1) (by omega) (by omega)
        (uvSucc stop)
      rw [show ((m : Int) - 1).toNat = m - 1 by omega] at hstores
      refine ⟨l', _, m - 1, ?_, hstores, by omega, by omega, ?_, List.length_set,
        take_set_of_le (by omega) _, ?_⟩
      · rw [if_neg hadjoins, bind_ok hfinal, if_pos hle, bind_ok hwrite]
        congr 2
        omega
      · rw [List.length_set]
        omega
      · rw [drop_set_self (by omega), show m - 1 + 1 = m by omega, after, if_neg (by omega),
          if_neg, uvSucc_eq hstop, closing_of_lt hstop]
        · rfl
        · rw [drop_eq_cons hlt, List.head?_cons, Option.some.injEq]
          exact fun heq => hadjoins heq.symm
  · refine ⟨l, ys, m, ?_, h, hodd, hnm, hm, rfl, rfl, ?_⟩
    · rw [if_pos ((matches_iff _).2 (by omega))]
    · rw [after, if_pos hodd]

theorem finishRange_inside (h : Stores l o ys) (hstop : stop < uvMax) (hn : n % 2 = 1) (hnm : n ≤ m)
    (hm : m ≤ ys.length) (hgap : m % 2 = 0 → m < ys.length ∧ start ≤ ys.getD (m - 1) 0)
    (junk : Nat) :
    ∃ l', l.finishRange junk ys.length (n - 1) (m - 1) start stop = .ok l' ∧
      Stores l' o (ys.take n ++ after m (ys.drop m) stop) := by
  obtain ⟨l₁, zs, k, hadjust, hstores, hk, hnk, hkle, hlength, htake, hdrop⟩ :=
    adjustEnd_spec h hstop hn hnm hm hgap
  rw [Invlist.finishRange, if_neg hstop.ne, bind_ok hadjust, ← htake, ← hdrop]
  dsimp only
  by_cases heq : n = k
  · subst heq
    rw [if_pos rfl, if_pos ((matches_iff _).2 (by omega)), List.take_append_drop]
    exact ⟨l₁, rfl, hstores⟩
  · obtain ⟨l₂, hmove, hoffset, hcut⟩ := hstores.move_cut (d := n) (s := k) (by omega) hnk hkle
    have hmove' : l₁.move ((k : Int) - 1 + 1) ((n : Int) - 1 + 1)
        ((ys.length : Int) - ((k : Int) - 1) - 1) = .ok l₂ := by
      rw [Int.sub_add_cancel, Int.sub_add_cancel, ← hlength, ← hmove]
      congr 1
      omega
    have hsize : ((ys.length : Int) - ((k : Int) - 1) + ((n : Int) - 1)).toNat =
        zs.length - k + n := by omega
    rw [if_neg (by omega), bind_ok hmove', hsize, hoffset]
    exact ⟨_, rfl, hcut⟩

theorem finishRange_uvMax (h : Stores l o ys) (hn : 0 < n) (hle : n ≤ ys.length)
    (junk len : Nat) (iE : Int) (start : Nat) :
    ∃ l', l.finishRange junk len (n - 1) iE start uvMax = .ok l' ∧ Stores l' o (ys.take n) := by
  rw [Invlist.finishRange, if_pos rfl, Int.sub_add_cancel, Int.toNat_natCast, h.isOffset]
  exact ⟨_, rfl, h.toLaid.setLen hn hle⟩

theorem getD_mem {i : Nat} (h : i < ys.length) : ys.getD i 0 ∈ ys := by
  rw [List.getD_eq_getElem _ _ h]
  exact List.getElem_mem h

/-- The range does not go beyond the highest one of the array. -/
def Reached (as ms bs : List Nat) : Prop := (as.length + ms.length) % 2 = 0 → bs ≠ []

section Cuts

variable (h : Cut xs start stop as ms bs)

include h

theorem Cut.length : xs.length = as.length + ms.length + bs.length := by
  rw [h.eq, List.length_append, List.length_append, Nat.add_assoc]

theorem Cut.take : xs.take as.length = as := by
  rw [h.eq, List.take_left]

theorem Cut.drop : xs.drop (as.length + ms.length) = bs := by
  rw [h.eq, ← List.append_assoc, ← List.length_append, List.drop_left]

theorem Cut.getD_inside (hlow : as.length ≤ k)
    (hhigh : k < as.length + ms.length) : start < xs.getD k 0 ∧ xs.getD k 0 ≤ stop := by
  have hmem : xs.getD k 0 ∈ ms := by
    rw [h.eq, List.getD_append_right _ _ _ _ hlow, List.getD_append _ _ _ _ (by omega)]
    exact getD_mem (by omega)
  exact ⟨h.above _ hmem, h.inside _ hmem⟩

theorem Cut.getD_behind (hlow : as.length + ms.length ≤ k)
    (hhigh : k < xs.length) : stop < xs.getD k 0 := by
  have hlength := h.length
  refine h.behind _ ?_
  rw [h.eq, List.getD_append_right _ _ _ _ (by omega), List.getD_append_right _ _ _ _ (by omega)]
  exact getD_mem (by omega)

theorem Cut.lt (hr : Reached as ms bs)
    (heven : (as.length + ms.length) % 2 = 0) : as.length + ms.length < xs.length := by
  have hpos := List.length_pos_iff.2 (hr heven)
  have hlength := h.length
  omega

end Cuts

theorem placeRange_inside (hl : Stores l o xs) (h : Cut xs start stop as ms bs)
    (hr : Reached as ms bs)
    (hstop : stop < uvMax) (hodd : as.length % 2 = 1) (junk : Nat) :
    ∃ l', l.placeRange junk xs.length (as.length - 1) ((as.length + ms.length : Nat) - 1) start stop =
        .ok l' ∧
      Stores l' o (before as start ++ after (as.length + ms.length) bs stop) := by
  have hlength := h.length
  have hgap : (as.length + ms.length) % 2 = 0 → as.length + ms.length < xs.length ∧
      start ≤ xs.getD (as.length + ms.length - 1) 0 := fun heven =>
    ⟨h.lt hr heven, (h.getD_inside (by omega) (by omega)).1.le⟩
  obtain ⟨l', hfinish, hstores⟩ :=
    finishRange_inside hl hstop hodd (Nat.le_add_right _ ms.length) (by omega) hgap junk
  rw [h.take, h.drop] at hstores
  rw [Invlist.placeRange, if_pos ((matches_iff _).2 (by omega)), before, if_pos hodd]
  exact ⟨l', hfinish, hstores⟩

theorem extends_eq (hl : Stores l o xs) (hstop : stop < uvMax) (hn : n < xs.length) :
    l.extendsTheRangeAbove ((n : Int) - 1) stop = .ok (decide (xs.getD n 0 ≤ stop + 1)) := by
  rw [Invlist.extendsTheRangeAbove, if_neg hstop.ne, Int.sub_add_cancel, bind_ok (hl.read_nat hn), uvSucc_eq hstop]

theorem Cut.read_below (h : Cut xs start stop (as ++ [z]) ms bs) (hl : Stores l o xs) :
    l.read (((as.length + 1 : Nat) : Int) - 1) = .ok z := by
  have hlength := h.length
  rw [length_snoc] at hlength
  rw [Int.natCast_add, Int.natCast_one, Int.add_sub_cancel, hl.read_nat (by omega), h.eq,
    List.getD_append _ _ _ _ (by rw [length_snoc]; omega), getD_last]

theorem Cut.take_below (h : Cut xs start stop (as ++ [z]) ms bs) : xs.take as.length = as := by
  rw [h.eq, List.append_assoc, List.take_left]

theorem Cut.after_filled (h : Cut xs start stop as ms bs) (hstop : stop < uvMax)
    (heven : as.length % 2 = 0) (hms : ms.length ≤ 1) (hlt : as.length < xs.length)
    (habove : xs.getD as.length 0 ≤ stop + 1) :
    after (as.length + ms.length) bs stop = xs.drop (as.length + 1) := by
  have hdrop := h.drop
  rcases Nat.le_one_iff_eq_zero_or_eq_one.1 hms with hzero | hone
  · have hbehind := h.getD_behind (k := as.length) (by omega) hlt
    rw [hzero, Nat.add_zero] at hdrop
    rw [hzero, Nat.add_zero, after, if_neg (by omega), ← hdrop, drop_eq_cons hlt, List.head?_cons,
      uvSucc_eq hstop, show xs.getD as.length 0 = stop + 1 by omega, if_pos rfl, List.tail_cons]
  · rw [hone] at hdrop
    rw [hone, after, if_pos (by omega), hdrop]

theorem Cut.after_within (h : Cut xs start stop as ms bs) (hstop : stop < uvMax)
    (heven : as.length % 2 = 0) (hlt : as.length < xs.length)
    (habove : stop + 1 < xs.getD as.length 0) :
    ms = [] ∧ after as.length bs stop = (stop + 1) :: xs.drop as.length := by
  have hms : ms = [] := by
    by_contra hne
    have hpos := List.length_pos_iff.2 hne
    have hinside := h.getD_inside (k := as.length) le_rfl (by omega)
    omega
  have hdrop := h.drop
  rw [hms, List.length_nil, Nat.add_zero] at hdrop
  refine ⟨hms, ?_⟩
  rw [after, if_neg (by omega), ← hdrop, drop_eq_cons hlt, List.head?_cons, uvSucc_eq hstop, if_neg,
    closing_of_lt hstop, List.singleton_append]
  rw [Option.some.injEq]
  omega

theorem placeRange_fill (hl : Stores l o xs) (h : Cut xs start stop (as ++ [start]) ms bs)
    (hstop : stop < uvMax) (hodd : as.length % 2 = 1) (hlt : as.length + 1 < xs.length)
    (hms : ms.length ≤ 1) (habove : xs.getD (as.length + 1) 0 ≤ stop + 1) (junk : Nat) :
    ∃ l', l.placeRange junk xs.length ((as.length + 1 : Nat) - 1)
        ((as.length + 1 + ms.length : Nat) - 1) start stop = .ok l' ∧
      Stores l' o (as ++ after (as.length + 1 + ms.length) bs stop) := by
  have hsnoc := length_snoc as start
  have hafter := h.after_filled hstop (by omega) hms (by omega) (by rw [hsnoc]; exact habove)
  have hread := h.read_below hl
  obtain ⟨l', hmove, hoffset, hcut⟩ :=
    hl.move_cut (d := as.length) (s := as.length + 2) (by omega) (by omega) (by omega)
  have hmove' : l.move (((as.length + 1 : Nat) : Int) - 1 + 2) (((as.length + 1 : Nat) : Int) - 1)
      ((xs.length : Int) - (((as.length + 1 : Nat) : Int) - 1) - 2) = .ok l' := by
    rw [← hmove]
    congr 1 <;> omega
  rw [hsnoc] at hafter
  rw [h.take_below, ← hafter,
    show xs.length - (as.length + 2) + as.length = xs.length - 2 by omega] at hcut
  rw [Invlist.placeRange, if_neg (not_matches (by omega)), bind_ok (extends_eq hl hstop hlt),
    bind_ok hread, if_pos rfl, if_pos ⟨by omega, decide_eq_true habove⟩, bind_ok hmove', hoffset]
  exact ⟨_, rfl, hcut⟩

theorem placeRange_touch (hl : Stores l o xs) (hxs : xs.Pairwise (· < ·))
    (h : Cut xs start stop (as ++ [start]) ms bs) (hr : Reached (as ++ [start]) ms bs)
    (hstop : stop < uvMax) (hodd : as.length % 2 = 1) (hlt : as.length + 1 < xs.length)
    (hnot : ¬ (ms.length ≤ 1 ∧ xs.getD (as.length + 1) 0 ≤ stop + 1)) (junk : Nat) :
    ∃ l', l.placeRange junk xs.length ((as.length + 1 : Nat) - 1)
        ((as.length + 1 + ms.length : Nat) - 1) start stop = .ok l' ∧
      Stores l' o (as ++ after (as.length + 1 + ms.length) bs stop) := by
  have hsnoc := length_snoc as start
  have hlength := h.length
  have hread := h.read_below hl
  obtain ⟨l₁, hwrite, hstores⟩ := hl.write (i := (as.length : Nat)) (by omega) (by omega) (stop + 1)
  rw [Int.toNat_natCast] at hstores
  have hsize : (xs.set as.length (stop + 1)).length = xs.length := List.length_set
  have hbelow := hstores.read_nat (n := as.length - 1) (by omega)
  have htake : (xs.set as.length (stop + 1)).take as.length = as := by
    rw [take_set_of_le le_rfl, h.take_below]
  obtain ⟨m, hmn, hmle, hm, hgap, hafter⟩ : ∃ m, as.length ≤ m ∧ m ≤ xs.length ∧
      (m : Int) - 1 = (if ((as.length + 1 + ms.length : Nat) : Int) - 1 -
          (((as.length + 1 : Nat) : Int) - 1) ≤ 1 then
        ((as.length + 1 + ms.length : Nat) : Int) - 1 - 1
        else ((as.length + 1 + ms.length : Nat) : Int) - 1) ∧
      (m % 2 = 0 → m < xs.length ∧ (xs.set as.length (stop + 1)).getD (as.length - 1) 0 ≤
        (xs.set as.length (stop + 1)).getD (m - 1) 0) ∧
      after m ((xs.set as.length (stop + 1)).drop m) stop =
        after (as.length + 1 + ms.length) bs stop := by
    by_cases hms : ms.length ≤ 1
    · have habove : stop + 1 < xs.getD (as.length + 1) 0 := by
        by_contra hle
        exact hnot ⟨hms, Nat.not_lt.1 hle⟩
      obtain ⟨hnil, hafter⟩ := h.after_within hstop (by omega) (by omega) (by rw [hsnoc]; exact habove)
      rw [hsnoc] at hafter
      refine ⟨as.length, le_rfl, by omega, ?_, fun heven => by omega, ?_⟩
      · rw [if_pos (by omega), hnil, List.length_nil]
        omega
      · rw [hnil, List.length_nil, Nat.add_zero, hafter, after, if_pos hodd,
          drop_set_self (by omega)]
    · refine ⟨as.length + 1 + ms.length, by omega, by omega, ?_, fun heven => ⟨?_, ?_⟩, ?_⟩
      · rw [if_neg (by omega)]
      · have hreached := h.lt hr (by omega)
        omega
      · rw [getD_set_of_ne (by omega), getD_set_of_ne (by omega)]
        exact getD_le hxs (by omega) (by omega)
      · have hdrop := h.drop
        rw [hsnoc] at hdrop
        rw [List.drop_set_of_lt (by omega), hdrop]
  obtain ⟨l', hfinish, hstores'⟩ := finishRange_inside hstores hstop hodd hmn (by omega)
    (fun heven => by rw [hsize]; exact hgap heven) junk
  rw [htake, hafter] at hstores'
  have hwrite' : l.write (((as.length + 1 : Nat) : Int) - 1)
      (if stop = uvMax then uvMax else uvSucc stop) = .ok l₁ := by
    rw [if_neg hstop.ne, uvSucc_eq hstop, ← hwrite]
    congr 1
    omega
  have hbelow' : l₁.read (((as.length + 1 : Nat) : Int) - 1 - 1) =
      .ok ((xs.set as.length (stop + 1)).getD (as.length - 1) 0) := by
    rw [← hbelow]
    congr 1
    omega
  have hcond : ¬ (((as.length + 1 + ms.length : Nat) : Int) - 1 - (((as.length + 1 : Nat) : Int) - 1)
      ≤ 1 ∧ decide (xs.getD (as.length + 1) 0 ≤ stop + 1) = true) := fun hand =>
    hnot ⟨by omega, of_decide_eq_true hand.2⟩
  rw [Invlist.placeRange, if_neg (not_matches (by omega)), bind_ok (extends_eq hl hstop hlt),
    bind_ok hread, if_pos rfl, if_neg hcond]
  dsimp only
  rw [bind_ok hwrite', bind_ok hbelow', ← hm,
    show ((as.length + 1 : Nat) : Int) - 1 - 1 = (as.length : Int) - 1 by omega, ← hsize]
  exact ⟨l', hfinish, hstores'⟩

theorem placeRange_above (hl : Stores l o xs)
    (h : Cut xs start stop (as ++ [z]) ms bs) (hr : Reached (as ++ [z]) ms bs)
    (hstop : stop < uvMax) (hodd : as.length % 2 = 1) (hlt : as.length + 1 < xs.length)
    (hne : start ≠ z) (habove : xs.getD (as.length + 1) 0 ≤ stop + 1) (junk : Nat) :
    ∃ l', l.placeRange junk xs.length ((as.length + 1 : Nat) - 1)
        ((as.length + 1 + ms.length : Nat) - 1) start stop = .ok l' ∧
      Stores l' o (as ++ [z] ++ [start] ++ after (as.length + 1 + ms.length) bs stop) := by
  have hsnoc := length_snoc as z
  have hlength := h.length
  have hread := h.read_below hl
  obtain ⟨l₁, hwrite, hstores⟩ := hl.write (i := (as.length + 1 : Nat)) (by omega) (by omega) start
  rw [Int.toNat_natCast] at hstores
  have hsize : (xs.set (as.length + 1) start).length = xs.length := List.length_set
  have htake : (xs.set (as.length + 1) start).take (as.length + 1 + 1) = as ++ [z] ++ [start] := by
    have hcut := h.take
    rw [hsnoc] at hcut
    rw [List.take_succ_eq_append_getElem (by omega), List.getElem_set_self, take_set_of_le le_rfl,
      hcut]
  obtain ⟨m, hmn, hmle, hm, hgap, hafter⟩ : ∃ m, as.length + 1 + 1 ≤ m ∧ m ≤ xs.length ∧
      (m : Int) - 1 = (if ((as.length + 1 + ms.length : Nat) : Int) - 1 =
          ((as.length + 1 : Nat) : Int) - 1 then
        ((as.length + 1 + ms.length : Nat) : Int) - 1 + 1
        else ((as.length + 1 + ms.length : Nat) : Int) - 1) ∧
      (m % 2 = 0 → m < xs.length ∧ start ≤ (xs.set (as.length + 1) start).getD (m - 1) 0) ∧
      after m ((xs.set (as.length + 1) start).drop m) stop =
        after (as.length + 1 + ms.length) bs stop := by
    by_cases hms : ms.length = 0
    · have hafter := h.after_filled hstop (by omega) (by omega) (by omega)
        (by rw [hsnoc]; exact habove)
      rw [hsnoc] at hafter
      refine ⟨as.length + 1 + 1, le_rfl, by omega, ?_, fun heven => by omega, ?_⟩
      · rw [if_pos (by omega), hms]
        omega
      · rw [hafter, after, if_pos (by omega), drop_set_succ]
    · refine ⟨as.length + 1 + ms.length, by omega, by omega, ?_, fun heven => ⟨?_, ?_⟩, ?_⟩
      · rw [if_neg (by omega)]
      · have hreached := h.lt hr (by omega)
        omega
      · rw [getD_set_of_ne (by omega)]
        exact (h.getD_inside (by omega) (by omega)).1.le
      · have hdrop := h.drop
        rw [hsnoc] at hdrop
        rw [List.drop_set_of_lt (by omega), hdrop]
  obtain ⟨l', hfinish, hstores'⟩ := finishRange_inside hstores hstop (by omega) hmn (by omega)
    (fun heven => by rw [hsize]; exact hgap heven) junk
  rw [htake, hafter] at hstores'
  have hwrite' : l.write (((as.length + 1 : Nat) : Int) - 1 + 1) start = .ok l₁ := by
    rw [Int.sub_add_cancel, hwrite]
  rw [Invlist.placeRange, if_neg (not_matches (by omega)), bind_ok (extends_eq hl hstop hlt),
    bind_ok hread, if_neg hne, if_pos (decide_eq_true habove)]
  dsimp only
  rw [bind_ok hwrite', ← hm,
    show ((as.length + 1 : Nat) : Int) - 1 + 1 = ((as.length + 1 + 1 : Nat) : Int) - 1 by omega,
    ← hsize]
  exact ⟨l', hfinish, hstores'⟩

theorem placeRange_within (hl : Stores l o xs) (h : Cut xs start stop (as ++ [z]) ms bs)
    (hstop : stop < uvMax) (hodd : as.length % 2 = 1) (hlt : as.length + 1 < xs.length)
    (hne : start ≠ z) (habove : stop + 1 < xs.getD (as.length + 1) 0) (junk : Nat) :
    ∃ l', l.placeRange junk xs.length ((as.length + 1 : Nat) - 1)
        ((as.length + 1 + ms.length : Nat) - 1) start stop = .ok l' ∧
      Stores l' o (as ++ [z] ++ [start] ++ after (as.length + 1 + ms.length) bs stop) := by
  have hsnoc := length_snoc as z
  have hread := h.read_below hl
  obtain ⟨hnil, hafter⟩ := h.after_within hstop (by omega) (by omega) (by rw [hsnoc]; exact habove)
  have hcut := h.take
  rw [hsnoc] at hafter hcut
  have hz : z < start := by
    have hle := h.below z (List.mem_append_right _ (List.mem_singleton_self z))
    omega
  obtain ⟨l', hsplice, hstores⟩ := splice_spec hl (k := as.length + 1) (by omega) junk start stop
  rw [hcut, uvSucc_eq hstop, ← hafter] at hstores
  have hread' : l.read (((as.length + 1 : Nat) : Int) - 1 + 1) = .ok (xs.getD (as.length + 1) 0) := by
    rw [Int.sub_add_cancel]
    exact hl.read_nat hlt
  have hadjust : l.adjustEnd (((as.length + 1 : Nat) : Int) - 1) start stop =
      .ok (l, ((as.length + 1 : Nat) : Int) - 1) := by
    rw [Invlist.adjustEnd, if_neg (not_matches (by omega)), bind_ok hread', if_neg, bind_ok hread,
      if_neg (Nat.not_le.2 hz)]
    rw [uvSucc_eq hstop]
    omega
  rw [hnil, List.length_nil, Nat.add_zero, Invlist.placeRange, if_neg (not_matches (by omega)),
    bind_ok (extends_eq hl hstop hlt), bind_ok hread, if_neg hne,
    if_neg (by rw [decide_eq_true_eq]; omega), Invlist.finishRange, if_neg hstop.ne,
    bind_ok hadjust]
  dsimp only
  rw [if_pos rfl, if_neg (not_matches (by omega))]
  refine ⟨l', hsplice, ?_⟩
  rw [List.append_assoc _ [start]]
  exact hstores

theorem placeRange_spec (hl : Stores l o xs) (hxs : Canonical xs) (h : Cut xs start stop as ms bs)
    (hr : Reached as ms bs) (hstop : stop < uvMax) (has : as ≠ []) (junk : Nat) :
    ∃ l', l.placeRange junk xs.length (as.length - 1) ((as.length + ms.length : Nat) - 1) start stop =
        .ok l' ∧
      Stores l' o (before as start ++ after (as.length + ms.length) bs stop) := by
  rcases Nat.mod_two_eq_zero_or_one as.length with heven | hodd
  · obtain ⟨as', z, heq⟩ := (List.eq_nil_or_concat as).resolve_left has
    rw [List.concat_eq_append] at heq
    subst heq
    rw [length_snoc] at heven ⊢
    have hlength := h.length
    rw [length_snoc] at hlength
    have hlt : as'.length + 1 < xs.length := by
      by_contra hge
      refine hr (by rw [length_snoc]; omega) (List.length_eq_zero_iff.1 (by omega))
    by_cases hz : start = z
    · subst hz
      have hbefore : before (as' ++ [start]) start = as' := by
        rw [before, length_snoc, if_neg (by omega), List.getLast?_concat, if_pos rfl,
          List.dropLast_concat]
      rw [hbefore]
      by_cases hfill : ms.length ≤ 1 ∧ xs.getD (as'.length + 1) 0 ≤ stop + 1
      · exact placeRange_fill hl h hstop (by omega) hlt hfill.1 hfill.2 junk
      · exact placeRange_touch hl hxs.strict h hr hstop (by omega) hlt hfill junk
    · have hbefore : before (as' ++ [z]) start = as' ++ [z] ++ [start] := by
        rw [before, length_snoc, if_neg (by omega), List.getLast?_concat, if_neg]
        rw [Option.some.injEq]
        exact fun heq => hz heq.symm
      rw [hbefore]
      rcases Nat.lt_or_ge (stop + 1) (xs.getD (as'.length + 1) 0) with habove | habove
      · exact placeRange_within hl h hstop (by omega) hlt hz habove junk
      · exact placeRange_above hl h hr hstop (by omega) hlt hz habove junk
  · exact placeRange_inside hl h hr hstop hodd junk

end XPerl.InversionList
