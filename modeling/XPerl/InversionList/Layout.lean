import Mathlib.Algebra.Order.Ring.Nat
import Mathlib.Data.List.GetD
import XPerl.Framework.Switches
import XPerl.InversionList.Operations

/-! The buffer of an inversion list: what each access does to it, and a range appended above all. -/

namespace XPerl.InversionList

open XPerl.Framework.Switches

variable {l l' : Invlist} {o : Bool} {xs ys rest : List Nat} {i junk n start stop v : Nat}

/-- A canonical array: strictly increasing code points. -/
structure Canonical (xs : List Nat) : Prop where
  strict : xs.Pairwise (· < ·)
  bound : ∀ x ∈ xs, x ≤ uvMax

def hidden (o : Bool) : List Nat := if o then [0] else []

/-- The buffer begins with an array, behind the hidden zero or at its place. -/
structure Laid (l : Invlist) (o : Bool) (xs : List Nat) : Prop where
  isOffset : l.isOffset = o
  slots : ∃ rest, l.slots = hidden o ++ xs ++ rest
  index : 0 ≤ l.prevIndex

/-- The buffer holds just that array. -/
structure Stores (l : Invlist) (o : Bool) (xs : List Nat) : Prop extends Laid l o xs where
  cur : l.cur = (hidden o).length + xs.length

def WellOffset (o : Bool) (xs : List Nat) : Prop := o = false ↔ xs.head? = some 0

/-- A buffer without elements. -/
structure Blank (l : Invlist) : Prop where
  cur : l.cur = 0
  room : 0 < l.slots.length
  index : 0 ≤ l.prevIndex

/-- A buffer holds a canonical array in canonical form. -/
def Holds (l : Invlist) (xs : List Nat) : Prop :=
  (Blank l ∧ xs = []) ∨ ∃ o, Stores l o xs ∧ Canonical xs ∧ WellOffset o xs

/-- An inversion list in canonical form. -/
def Valid (l : Invlist) : Prop := ∃ xs, Holds l xs

/-- Whether a code point is in the set of a list. -/
def Invlist.Mem (l : Invlist) (v : Nat) : Prop := state false l.array v = true

theorem bind_ok {α β : Type} {r : Except Fault α} {a : α} (h : r = .ok a)
    (f : α → Except Fault β) : (r >>= f) = f a := by
  rw [h]
  rfl

theorem length_hidden (o : Bool) : (hidden o).length = if o then 1 else 0 := by
  cases o <;> rfl

theorem Laid.offset (h : Laid l o xs) : l.offset = (hidden o).length := by
  rw [Invlist.offset, h.isOffset, length_hidden]

theorem Stores.len (h : Stores l o xs) : l.len = xs.length := by
  rw [Invlist.len, h.offset, h.cur]
  split_ifs <;> omega

theorem Stores.array (h : Stores l o xs) : l.array = xs := by
  obtain ⟨rest, hslots⟩ := h.slots
  rw [Invlist.array, h.offset, h.cur, hslots, ← List.length_append, List.take_left, List.drop_left]

theorem Laid.place (h : Laid l o xs) {i : Int} (hi : 0 ≤ i) :
    (i + l.offset).toNat = (hidden o).length + i.toNat := by
  rw [h.offset]
  omega

theorem Laid.length_slots (h : Laid l o xs) :
    (hidden o).length + xs.length ≤ l.slots.length := by
  obtain ⟨rest, hslots⟩ := h.slots
  rw [hslots, List.length_append, List.length_append]
  omega

theorem Stores.read (h : Stores l o xs) {i : Int} (hi : 0 ≤ i) (hlt : i < xs.length) :
    l.read i = .ok (xs.getD i.toNat 0) := by
  obtain ⟨rest, hslots⟩ := h.slots
  have hin : 0 ≤ i + l.offset ∧ i + l.offset < l.cur := by
    rw [h.offset, h.cur]
    omega
  rw [Invlist.read, if_pos hin, h.place hi, hslots, List.append_assoc,
    List.getD_append_right _ _ _ _ (Nat.le_add_right _ _), Nat.add_sub_cancel_left,
    List.getD_append _ _ _ _ (by omega)]

theorem Stores.read_hidden (h : Stores l true xs) : l.read (-1) = .ok 0 := by
  obtain ⟨rest, hslots⟩ := h.slots
  have hin : 0 ≤ -1 + (l.offset : Int) ∧ -1 + (l.offset : Int) < l.cur := by
    rw [h.offset, h.cur, length_hidden]
    simp
    omega
  rw [Invlist.read, if_pos hin, h.offset, hslots]
  rfl

theorem Laid.write (h : Laid l o xs) {i : Int} (hi : 0 ≤ i) (hlt : i < xs.length) (v : Nat) :
    ∃ l', l.write i v = .ok l' ∧ Laid l' o (xs.set i.toNat v) ∧ l'.cur = l.cur := by
  have hlength := h.length_slots
  obtain ⟨rest, hslots⟩ := h.slots
  have hin : 0 ≤ i + l.offset ∧ i + l.offset < l.slots.length := by
    rw [h.offset]
    omega
  have hset : l.slots.set (i + l.offset).toNat v = hidden o ++ xs.set i.toNat v ++ rest := by
    rw [h.place hi, hslots, List.append_assoc, List.set_append_right _ _ (Nat.le_add_right _ _),
      Nat.add_sub_cancel_left, List.set_append_left _ _ (by omega), List.append_assoc]
  exact ⟨_, if_pos hin, ⟨h.isOffset, ⟨rest, hset⟩, h.index⟩, rfl⟩

theorem Stores.write (h : Stores l o xs) {i : Int} (hi : 0 ≤ i) (hlt : i < xs.length) (v : Nat) :
    ∃ l', l.write i v = .ok l' ∧ Stores l' o (xs.set i.toNat v) := by
  obtain ⟨l', hwrite, hlaid, hcur⟩ := h.toLaid.write hi hlt v
  exact ⟨l', hwrite, hlaid, by rw [List.length_set, hcur, h.cur]⟩

theorem Laid.setLen (h : Laid l o xs) (hn : 0 < n) (hle : n ≤ xs.length) :
    Stores (l.setLen n o) o (xs.take n) := by
  obtain ⟨rest, hslots⟩ := h.slots
  refine ⟨⟨h.isOffset, ⟨xs.drop n ++ rest, ?_⟩, h.index⟩, ?_⟩
  · have hsplit : xs ++ rest = xs.take n ++ (xs.drop n ++ rest) := by
      rw [← List.append_assoc, List.take_append_drop]
    rw [List.append_assoc, ← hsplit, ← List.append_assoc]
    exact hslots
  · rw [Invlist.setLen, if_neg (by omega), length_hidden, List.length_take, Nat.min_eq_left hle,
      Nat.add_comm]

theorem Laid.setLen_all (h : Laid l o xs) (hn : 0 < xs.length) :
    Stores (l.setLen xs.length o) o xs := by
  have hall := h.setLen hn le_rfl
  rw [List.take_length] at hall
  exact hall

theorem Stores.move (h : Stores l o xs) {d s : Nat} (hs : s ≤ xs.length)
    (hroom : (hidden o).length + d + (xs.length - s) ≤ l.slots.length)
    (hd : l.slots.take ((hidden o).length + d) = hidden o ++ ys) :
    ∃ l', l.move s d (xs.length - s) = .ok l' ∧ Laid l' o (ys ++ xs.drop s) := by
  obtain ⟨rest, hslots⟩ := h.slots
  have hin : 0 ≤ (xs.length - s : Int) ∧ 0 ≤ (s + l.offset : Int) ∧
      (s + l.offset + (xs.length - s) : Int) ≤ l.cur ∧ 0 ≤ (d + l.offset : Int) ∧
      (d + l.offset + (xs.length - s) : Int) ≤ l.slots.length := by
    rw [h.offset, h.cur]
    omega
  have hdrop : (l.slots.drop (s + l.offset : Int).toNat).take (xs.length - s : Int).toNat =
      xs.drop s := by
    rw [h.place (by omega), hslots, List.append_assoc, Int.toNat_natCast,
      List.drop_length_add_append, List.drop_append_of_le_length hs]
    exact List.take_left' (by rw [List.length_drop]; omega)
  refine ⟨_, if_pos hin, h.isOffset,
    ⟨l.slots.drop (d + l.offset + (xs.length - s) : Int).toNat, ?_⟩, h.index⟩
  dsimp only
  rw [h.place (by omega), Int.toNat_natCast, hd, hdrop, List.append_assoc (hidden o)]

theorem Stores.move_cut (h : Stores l o xs) {d s : Nat} (hd : 0 < d) (hds : d ≤ s)
    (hs : s ≤ xs.length) :
    ∃ l', l.move s d (xs.length - s) = .ok l' ∧ l'.isOffset = o ∧
      Stores (l'.setLen (xs.length - s + d) o) o (xs.take d ++ xs.drop s) := by
  have hlength := h.length_slots
  have htake : l.slots.take ((hidden o).length + d) = hidden o ++ xs.take d := by
    obtain ⟨rest, hslots⟩ := h.slots
    rw [hslots, List.append_assoc, List.take_length_add_append,
      List.take_append_of_le_length (by omega)]
  obtain ⟨l', hmove, hlaid⟩ := h.move hs (by omega) htake
  have hcut : (xs.take d ++ xs.drop s).length = xs.length - s + d := by
    rw [List.length_append, List.length_take, List.length_drop]
    omega
  have hstores := hlaid.setLen_all (by omega)
  rw [hcut] at hstores
  exact ⟨l', hmove, hlaid.isOffset, hstores⟩

theorem strlenRoundup_ge (n : Nat) : n ≤ Invlist.strlenRoundup n / 8 * 8 := by
  rw [Invlist.strlenRoundup]
  omega

theorem expectedSize_ge (n : Nat) : n ≤ Invlist.expectedSize n / 8 * 8 := by
  rw [Invlist.expectedSize]
  split_ifs
  · exact strlenRoundup_ge n
  · omega

theorem svGrow_spec (junk : Nat) (l : Invlist) (newlen : Nat) :
    ∃ more, l.svGrow junk newlen = { l with slots := l.slots ++ more } ∧
      newlen ≤ (l.slots ++ more).length * 8 := by
  rw [Invlist.svGrow]
  by_cases h : l.svLen < newlen
  · rw [if_pos h]
    dsimp only
    generalize hasked : (if newlen + 1 < l.cur * 8 + l.cur * 8 / 4 + 16 then
      l.cur * 8 + l.cur * 8 / 4 + 16 else newlen + 1) = asked
    generalize hgrown : (if l.svLen = 0 then Invlist.expectedSize asked
      else Invlist.strlenRoundup asked) = grown
    have hge : newlen ≤ asked := by
      rw [← hasked]
      split_ifs <;> omega
    have hgrow : asked ≤ grown / 8 * 8 := by
      rw [← hgrown]
      split_ifs
      · exact expectedSize_ge asked
      · exact strlenRoundup_ge asked
    refine ⟨_, rfl, ?_⟩
    rw [List.length_append, List.length_replicate]
    omega
  · rw [if_neg h]
    refine ⟨[], by rw [List.append_nil], ?_⟩
    rw [List.append_nil]
    exact Nat.not_lt.1 h

theorem Laid.svGrow (h : Laid l o xs) (junk newlen : Nat) :
    Laid (l.svGrow junk newlen) o xs ∧ newlen ≤ (l.svGrow junk newlen).slots.length * 8 ∧
      (l.svGrow junk newlen).cur = l.cur := by
  obtain ⟨more, hgrow, hroom⟩ := svGrow_spec junk l newlen
  obtain ⟨rest, hslots⟩ := h.slots
  rw [hgrow]
  exact ⟨⟨h.isOffset, ⟨rest ++ more, by rw [hslots, List.append_assoc]⟩, h.index⟩, hroom, rfl⟩

theorem Laid.extend (h : Laid l o xs) (junk newMax : Nat) :
    Laid (l.extend junk newMax) o xs ∧ newMax + 1 ≤ (l.extend junk newMax).slots.length ∧
      (l.extend junk newMax).cur = l.cur := by
  obtain ⟨hlaid, hroom, hcur⟩ := h.svGrow junk ((newMax + 1) * 8)
  exact ⟨hlaid, Nat.le_of_mul_le_mul_right hroom (by decide), hcur⟩

theorem new_blank (junk n : Nat) :
    Blank (Invlist.new junk n) ∧ n + 2 ≤ (Invlist.new junk n).slots.length := by
  obtain ⟨more, hgrow, hroom⟩ := svGrow_spec junk ⟨[], 0, false, 0⟩ ((n + 1) * 8 + 1)
  have hslots : (Invlist.new junk n).slots = [] ++ more := by
    rw [Invlist.new, Invlist.initializeGuts, hgrow]
    rfl
  have hlength : n + 2 ≤ (Invlist.new junk n).slots.length := by
    rw [hslots]
    change (n + 1) * 8 + 1 ≤ ([] ++ more).length * 8 at hroom
    omega
  exact ⟨⟨rfl, by omega, le_rfl⟩, hlength⟩

variable {max : Nat}

def closing (stop : Nat) : List Nat := if stop = uvMax then [] else [uvSucc stop]

theorem Laid.nil (hslots : 0 < l.slots.length) (hzero : l.slots.getD 0 0 = 0)
    (hindex : 0 ≤ l.prevIndex) : Laid l l.isOffset [] := by
  refine ⟨rfl, ?_, hindex⟩
  obtain ⟨z, rest, hcons⟩ := List.exists_cons_of_ne_nil (List.length_pos_iff.1 hslots)
  rw [hcons, List.getD_cons_zero] at hzero
  subst hzero
  cases l.isOffset with
  | false => exact ⟨_, rfl⟩
  | true => exact ⟨rest, hcons⟩

theorem arrayInit_spec (hroom : 0 < l.slots.length) (hindex : 0 ≤ l.prevIndex) (willHave0 : Bool) :
    ∃ l', l.arrayInit willHave0 = .ok l' ∧ Laid l' (!willHave0) [] ∧ l'.cur = l.cur ∧
      l'.slots.length = l.slots.length := by
  refine ⟨_, if_pos hroom, Laid.nil ?_ ?_ hindex, rfl, List.length_set⟩
  · rw [List.length_set]
    exact hroom
  · rw [List.getD_eq_getElem?_getD, List.getElem?_set_self hroom]
    rfl

theorem Laid.two_more (h : Laid l o xs)
    (hroom : (hidden o).length + xs.length + 2 ≤ l.slots.length) :
    ∃ a b, Laid l o (xs ++ [a, b]) := by
  obtain ⟨rest, hslots⟩ := h.slots
  have hlength : 2 ≤ rest.length := by
    rw [hslots, List.length_append, List.length_append] at hroom
    omega
  obtain ⟨a, b, rest', hrest⟩ : ∃ a b rest', rest = a :: b :: rest' := by
    rcases rest with _ | ⟨a, _ | ⟨b, rest'⟩⟩
    · exact absurd hlength (by decide)
    · exact absurd hlength (by simp)
    · exact ⟨a, b, rest', rfl⟩
  refine ⟨a, b, h.isOffset, ⟨rest', ?_⟩, h.index⟩
  rw [hslots, hrest]
  simp

theorem length_hidden_le (o : Bool) : (hidden o).length ≤ 1 := by
  cases o <;> decide

theorem addAtEnd_spec (h : Laid l o xs) (hmax : max ≤ l.slots.length - 1) (junk start stop : Nat) :
    ∃ l', Invlist.addAtEnd junk l max xs.length o start stop = .ok l' ∧
      Stores l' o (xs ++ start :: closing stop) ∧
      (hidden o).length + xs.length + 2 ≤ l'.slots.length := by
  have hhidden := length_hidden_le o
  obtain ⟨l₁, hl₁, hlaid, hroom⟩ : ∃ l₁, l₁.setLen (xs.length + 2) o =
      (if max < xs.length + 2 then (l.extend junk (xs.length + 2)).setLen (xs.length + 2) o
        else l.setLen (xs.length + 2) o) ∧ Laid l₁ o xs ∧
      (hidden o).length + xs.length + 2 ≤ l₁.slots.length := by
    by_cases hlt : max < xs.length + 2
    · obtain ⟨hlaid, hroom, -⟩ := h.extend junk (xs.length + 2)
      exact ⟨_, (if_pos hlt).symm, hlaid, by omega⟩
    · exact ⟨l, (if_neg hlt).symm, h, by omega⟩
  obtain ⟨a, b, hmore⟩ := hlaid.two_more hroom
  have hstores := hmore.setLen_all (by rw [List.length_append]; exact Nat.lt_add_left _ (Nat.succ_pos _))
  have hlength : (xs ++ [a, b]).length = xs.length + 2 := List.length_append
  rw [hlength] at hstores
  obtain ⟨l₂, hwrite, hstores₂⟩ := hstores.write (i := xs.length) (by omega) (by omega) start
  rw [Int.toNat_natCast, List.set_append_right _ _ le_rfl, Nat.sub_self, List.set_cons_zero]
    at hstores₂
  have hlength₂ := hstores₂.length_slots
  rw [List.length_append, List.length_cons, List.length_singleton] at hlength₂
  rw [Invlist.addAtEnd]
  rw [← hl₁, bind_ok (a := l₂) (by rw [← hwrite]; congr 1; omega)]
  by_cases hstop : stop = uvMax
  · have hcut := hstores₂.toLaid.setLen (n := xs.length + 1) (by omega)
      (by rw [List.length_append, List.length_cons, List.length_singleton]; omega)
    rw [List.take_length_add_append] at hcut
    rw [if_neg (not_not.2 hstop), closing, if_pos hstop]
    exact ⟨_, rfl, hcut, by change _ ≤ l₂.slots.length; omega⟩
  · obtain ⟨l₃, hwrite₃, hstores₃⟩ := hstores₂.write (i := xs.length + 1) (by omega)
      (by rw [List.length_append, List.length_cons, List.length_singleton]; omega) (uvSucc stop)
    rw [show ((xs.length : Int) + 1).toNat = xs.length + 1 by omega,
      List.set_append_right _ _ (Nat.le_add_right _ 1), Nat.add_sub_cancel_left] at hstores₃
    rw [if_pos hstop, closing, if_neg hstop]
    have hlength₃ := hstores₃.length_slots
    rw [List.length_append, List.length_set, List.length_cons, List.length_singleton] at hlength₃
    refine ⟨l₃, ?_, hstores₃, by omega⟩
    rw [← hwrite₃]
    congr 1
    omega

theorem max_le (h : 0 < l.slots.length) : l.max ≤ l.slots.length - 1 := by
  have hlen : l.svLen ≠ 0 := by
    rw [Invlist.svLen]
    omega
  rw [Invlist.max, if_neg hlen]

theorem Blank.len (h : Blank l) : l.len = 0 := by
  rw [Invlist.len, if_pos h.cur]

theorem Stores.room (h : Stores l o xs) (hpos : 0 < xs.length) : 0 < l.slots.length := by
  have hlength := h.length_slots
  omega

def Empty (l : Invlist) : Prop := Blank l ∨ Stores l true []

theorem Empty.len (h : Empty l) : l.len = 0 := h.elim Blank.len Stores.len

theorem Empty.appendRange (h : Empty l) (junk start stop : Nat) :
    ∃ l', l.appendRange junk start stop = .ok l' ∧
      Stores l' (decide (start ≠ 0)) (start :: closing stop) ∧ 2 ≤ l'.slots.length := by
  have hroom : 0 < l.slots.length := by
    rcases h with h | h
    · exact h.room
    · have hlength := h.length_slots
      exact hlength
  have hindex : 0 ≤ l.prevIndex := h.elim Blank.index fun h => h.index
  obtain ⟨l₁, hinit, hlaid, -, hlength⟩ := arrayInit_spec hroom hindex (!decide (start ≠ 0))
  rw [Bool.not_not] at hlaid
  have hmax : l.max ≤ l₁.slots.length - 1 := by
    rw [hlength]
    exact max_le hroom
  obtain ⟨l', hadd, hstores, hmore⟩ := addAtEnd_spec hlaid hmax junk start stop
  refine ⟨l', ?_, hstores, by omega⟩
  rw [Invlist.appendRange, if_pos h.len, bind_ok hinit]
  exact hadd

theorem matches_iff (i : Int) : elementRangeMatches i = true ↔ i % 2 = 0 := by
  rw [elementRangeMatches, decide_eq_true_eq]

theorem not_matches {i : Int} (h : i % 2 = 1) : ¬ elementRangeMatches i = true := by
  rw [matches_iff]
  omega

theorem getD_last (ys : List Nat) (x d : Nat) : (ys ++ [x]).getD ys.length d = x := by
  rw [List.getD_append_right _ _ _ _ le_rfl, Nat.sub_self, List.getD_cons_zero]

theorem length_snoc (ys : List Nat) (x : Nat) : (ys ++ [x]).length = ys.length + 1 := by
  rw [List.length_append, List.length_singleton]

theorem appendRange_last {x : Nat} (h : Stores l o (ys ++ [x])) (hodd : ys.length % 2 = 1)
    (hle : x ≤ start) (junk stop : Nat) :
    l.appendRange junk start stop =
      if x = start then
        if stop ≠ uvMax then l.write (ys.length : Int) (uvSucc stop)
        else .ok (l.setLen ys.length o)
      else Invlist.addAtEnd junk l l.max (ys ++ [x]).length o start stop := by
  have hlen : l.len = ys.length + 1 := h.len.trans (length_snoc ys x)
  have hread : l.read (ys.length : Int) = .ok x := by
    rw [h.read (by omega) (by rw [length_snoc]; omega), Int.toNat_natCast, getD_last]
  have hnot : ¬ (start < x ∨ elementRangeMatches (ys.length : Int) = true) := by
    rw [not_or]
    exact ⟨by omega, not_matches (by omega)⟩
  rw [Invlist.appendRange, hlen, if_neg (Nat.succ_ne_zero _), Nat.add_sub_cancel, bind_ok hread,
    if_neg hnot, h.isOffset, length_snoc]

theorem appendRange_above {x : Nat} (h : Stores l o (ys ++ [x])) (hodd : ys.length % 2 = 1)
    (hlt : x < start) (junk stop : Nat) :
    ∃ l', l.appendRange junk start stop = .ok l' ∧
      Stores l' o (ys ++ [x] ++ start :: closing stop) := by
  have hroom := h.room (by rw [length_snoc]; exact Nat.succ_pos _)
  rw [appendRange_last h hodd hlt.le, if_neg hlt.ne]
  obtain ⟨l', hadd, hstores, -⟩ := addAtEnd_spec h.toLaid (max_le hroom) junk start stop
  exact ⟨l', hadd, hstores⟩

theorem appendRange_touch {x : Nat} (h : Stores l o (ys ++ [x])) (hodd : ys.length % 2 = 1)
    (junk stop : Nat) :
    ∃ l', l.appendRange junk x stop = .ok l' ∧ Stores l' o (ys ++ closing stop) := by
  rw [appendRange_last h hodd le_rfl, if_pos rfl]
  by_cases hstop : stop = uvMax
  · have hcut := h.toLaid.setLen (n := ys.length) (by omega) (by rw [length_snoc]; omega)
    rw [List.take_left] at hcut
    rw [if_neg (not_not.2 hstop), closing, if_pos hstop, List.append_nil]
    exact ⟨_, rfl, hcut⟩
  · obtain ⟨l', hwrite, hstores⟩ := h.write (i := ys.length) (by omega)
      (by rw [length_snoc]; omega) (uvSucc stop)
    rw [Int.toNat_natCast, List.set_append_right _ _ le_rfl, Nat.sub_self, List.set_cons_zero]
      at hstores
    rw [if_pos hstop, closing, if_neg hstop]
    exact ⟨l', hwrite, hstores⟩

end XPerl.InversionList
