import XPerl.InversionList.Ranges

/-! Lists as a whole: copied, replaced, inverted and built from arrays; union and intersection. -/

namespace XPerl.InversionList

open XPerl.Framework.Switches Invlist

variable {l l' src dest : Invlist} {o : Bool} {xs ys : List Nat} {junk n v : Nat}

def complement (xs : List Nat) : List Nat := if xs.head? = some 0 then xs.tail else 0 :: xs

theorem canonical_nil : Canonical [] := ⟨.nil, fun _ hx => absurd hx List.not_mem_nil⟩

theorem Canonical.complement (h : Canonical xs) : Canonical (complement xs) := by
  rw [InversionList.complement]
  split_ifs with hzero
  · obtain ⟨ys, hys⟩ := List.head?_eq_some_iff.1 hzero
    subst hys
    exact ⟨(List.pairwise_cons.1 h.strict).2, fun x hx => h.bound x (List.mem_cons_of_mem _ hx)⟩
  · refine ⟨List.pairwise_cons.2 ⟨fun x hx => Nat.pos_of_ne_zero fun heq => hzero ?_, h.strict⟩,
      List.forall_mem_cons.2 ⟨Nat.zero_le _, h.bound⟩⟩
    cases xs with
    | nil => cases hx
    | cons y ys =>
      rcases List.mem_cons.1 hx with hx | hx
      · rw [List.head?_cons, ← hx, heq]
      · have hlt := (List.pairwise_cons.1 h.strict).1 x hx
        omega

theorem state_complement (h : Canonical xs) (v : Nat) :
    state false (complement xs) v = !state false xs v := by
  rw [complement]
  split_ifs with hzero
  · obtain ⟨ys, hys⟩ := List.head?_eq_some_iff.1 hzero
    subst hys
    rw [List.tail_cons, state_of_le (Nat.zero_le v), state_not, Bool.not_not]
  · rw [state_of_le (Nat.zero_le v), state_not]

theorem Holds.canonical (h : Holds l xs) : Canonical xs := by
  rcases h with ⟨-, hnil⟩ | ⟨o, -, hxs, -⟩
  · rw [hnil]
    exact canonical_nil
  · exact hxs

theorem Holds.array (h : Holds l xs) : l.array = xs := by
  rcases h with ⟨hblank, hnil⟩ | ⟨o, hstores, -⟩
  · rw [Invlist.array, hblank.cur, hnil, List.take_zero, List.drop_nil]
  · exact hstores.array

theorem Holds.len (h : Holds l xs) : l.len = xs.length := by
  rcases h with ⟨hblank, hnil⟩ | ⟨o, hstores, -⟩
  · rw [hblank.len, hnil]
    rfl
  · exact hstores.len

theorem Holds.index (h : Holds l xs) : 0 ≤ l.prevIndex := by
  rcases h with ⟨hblank, -⟩ | ⟨o, hstores, -⟩
  · exact hblank.index
  · exact hstores.index

theorem Holds.room (h : Holds l xs) : 0 < l.slots.length := by
  rcases h with ⟨hblank, -⟩ | ⟨o, hstores, -, hwell⟩
  · exact hblank.room
  · have hlength := hstores.length_slots
    cases o with
    | false =>
      obtain ⟨ys, hys⟩ := List.head?_eq_some_iff.1 (hwell.1 rfl)
      rw [hys, List.length_cons] at hlength
      omega
    | true => exact (Nat.succ_pos _).trans_le ((Nat.le_add_right _ _).trans hlength)

theorem Holds.stores (h : Holds l xs) (hne : xs ≠ []) :
    ∃ o, Stores l o xs ∧ Canonical xs ∧ WellOffset o xs := by
  rcases h with ⟨-, hnil⟩ | hstores
  · exact absurd hnil hne
  · exact hstores

theorem Holds.empty (h : Holds l []) : Empty l := by
  rcases h with ⟨hblank, -⟩ | ⟨o, hstores, -, hwell⟩
  · exact .inl hblank
  · cases o with
    | false => exact absurd (hwell.1 rfl) (by simp)
    | true => exact .inr hstores

theorem Blank.holds (h : Blank l) : Holds l [] := .inl ⟨h, rfl⟩

theorem Holds.len_eq_zero (h : Holds l xs) : l.len = 0 ↔ xs = [] := by
  rw [h.len, List.length_eq_zero_iff]

def Spare (l : Invlist) : Prop := l.cur < l.slots.length

theorem realistic_ge (n : Nat) : n + 1 ≤ expectedSize (Nat.max 16 (n * 8 + 1)) / 8 := by
  have hge := expectedSize_ge (Nat.max 16 (n * 8 + 1))
  have hmax : n * 8 + 1 ≤ Nat.max 16 (n * 8 + 1) := Nat.le_max_right _ _
  omega

theorem trim_spec (l : Invlist) :
    ∃ m, l.trim = { l with slots := l.slots.take m } ∧ l.cur + 1 ≤ m := by
  rw [Invlist.trim]
  split_ifs with h
  · exact ⟨_, rfl, realistic_ge l.cur⟩
  · exact ⟨Nat.max l.slots.length (l.cur + 1), by rw [List.take_of_length_le (Nat.le_max_left _ _)],
      Nat.le_max_right _ _⟩

theorem Stores.trim (h : Stores l o xs) : Stores l.trim o xs := by
  obtain ⟨m, htrim, hm⟩ := trim_spec l
  obtain ⟨rest, hslots⟩ := h.slots
  rw [htrim]
  have hcur := h.cur
  refine ⟨⟨h.isOffset, ⟨rest.take (m - (hidden o ++ xs).length), ?_⟩, h.index⟩, h.cur⟩
  dsimp only
  rw [hslots, List.take_append, List.take_of_length_le]
  rw [List.length_append]
  omega

theorem Spare.trim (h : Spare l) : Spare l.trim := by
  obtain ⟨m, htrim, hm⟩ := trim_spec l
  rw [htrim, Spare, List.length_take]
  rw [Spare] at h
  dsimp only
  omega

theorem Blank.trim (h : Blank l) : Blank l.trim := by
  obtain ⟨m, htrim, hm⟩ := trim_spec l
  have hroom := h.room
  rw [htrim]
  refine ⟨h.cur, ?_, h.index⟩
  rw [List.length_take]
  omega

theorem Holds.clear (h : Holds l xs) : Holds l.clear [] :=
  (Blank.trim ⟨rfl, h.room, h.index⟩ : Blank (l.setLen 0 false).trim).holds

theorem new_holds (junk n : Nat) : Holds (new junk n) [] := (new_blank junk n).1.holds

theorem initializeGuts_room (junk : Nat) (l : Invlist) (n : Nat) :
    n + 2 ≤ (l.initializeGuts junk n).slots.length := by
  obtain ⟨more, hgrow, hroom⟩ := svGrow_spec junk l ((n + 1) * 8 + 1)
  have hslots : (l.initializeGuts junk n).slots = l.slots ++ more := by
    rw [Invlist.initializeGuts, hgrow]
    rfl
  rw [hslots]
  omega

theorem Laid.holds (h : Laid l o xs) (hroom : 0 < l.slots.length) (hxs : Canonical xs)
    (hwell : WellOffset o xs) : Holds (l.setLen xs.length o) xs := by
  rcases Nat.eq_zero_or_pos xs.length with hzero | hpos
  · have hcur : (l.setLen xs.length o).cur = 0 := if_pos hzero
    exact .inl ⟨⟨hcur, hroom, h.index⟩, List.length_eq_zero_iff.1 hzero⟩
  · exact .inr ⟨o, h.setLen_all hpos, hxs, hwell⟩

def target (junk : Nat) (newInvlist : Option Invlist) (n : Nat) : Invlist :=
  match newInvlist with
  | none => Invlist.new junk n
  | some l => l.initializeGuts junk n

theorem clone_eq (junk : Nat) (l : Invlist) (newInvlist : Option Invlist) :
    l.clone junk newInvlist = Invlist.setLen ⟨l.slots.take l.cur ++
      (target junk newInvlist l.len).slots.drop l.cur, 0, l.isOffset, 0⟩ l.len l.isOffset := by
  cases newInvlist <;> rfl

theorem target_room (junk : Nat) (newInvlist : Option Invlist) (n : Nat) :
    n + 2 ≤ (target junk newInvlist n).slots.length := by
  cases newInvlist with
  | none => exact initializeGuts_room junk _ n
  | some l' => exact initializeGuts_room junk l' n

theorem setLen_cur_le (l : Invlist) (n : Nat) (o : Bool) : (l.setLen n o).cur ≤ n + 1 := by
  rw [Invlist.setLen]
  dsimp only
  split_ifs <;> omega

theorem Holds.cur_le (h : Holds l xs) : l.cur ≤ l.slots.length := by
  rcases h with ⟨hblank, -⟩ | ⟨o, hstores, -⟩
  · exact hblank.cur.trans_le (Nat.zero_le _)
  · exact hstores.cur.trans_le hstores.length_slots

theorem Holds.clone_spare (h : Holds l xs) (junk : Nat) (newInvlist : Option Invlist) :
    Spare (l.clone junk newInvlist) := by
  have hroom := target_room junk newInvlist l.len
  have hcur := h.cur_le
  rw [clone_eq]
  refine (setLen_cur_le _ _ _).trans_lt ?_
  change _ < (l.slots.take l.cur ++ (target junk newInvlist l.len).slots.drop l.cur).length
  rw [List.length_append, List.length_take, List.length_drop]
  omega

theorem Holds.clone (h : Holds l xs) (junk : Nat) (newInvlist : Option Invlist) :
    Holds (l.clone junk newInvlist) xs := by
  have hspare : 0 < (l.clone junk newInvlist).slots.length :=
    (Nat.zero_le _).trans_lt (h.clone_spare junk newInvlist)
  rw [clone_eq, h.len] at hspare ⊢
  rcases h with ⟨-, hnil⟩ | ⟨o, hstores, hxs, hwell⟩
  · rw [hnil] at hspare ⊢
    exact .inl ⟨⟨rfl, hspare, le_rfl⟩, rfl⟩
  · obtain ⟨rest, hslots⟩ := hstores.slots
    rw [hstores.isOffset] at hspare ⊢
    have htake : l.slots.take l.cur = hidden o ++ xs := by
      rw [hstores.cur, hslots, ← List.length_append, List.take_left]
    rw [htake] at hspare ⊢
    exact Laid.holds ⟨rfl, ⟨_, rfl⟩, le_rfl⟩ hspare hxs hwell

theorem length_endWithNul (slots : List Nat) :
    (Invlist.endWithNul slots).length = slots.length := List.length_set

theorem endWithNul_append {rest : List Nat} (hne : rest ≠ []) (xs : List Nat) :
    Invlist.endWithNul (xs ++ rest) = xs ++ Invlist.endWithNul rest := by
  have hpos := List.length_pos_iff.2 hne
  have hlast : xs.length ≤ (xs ++ rest).length - 1 := by
    rw [List.length_append]
    omega
  have hsub : (xs ++ rest).length - 1 - xs.length = rest.length - 1 := by
    rw [List.length_append]
    omega
  rw [Invlist.endWithNul, List.set_append_right _ _ hlast, List.getD_append_right _ _ _ _ hlast,
    hsub]
  rfl

theorem Holds.replace (h : Holds src xs) (hspare : Spare src) (dest : Invlist) :
    Holds (dest.replaceListDestroysSrc src) xs := by
  have hroom : 0 < (Invlist.endWithNul src.slots).length := by
    rw [length_endWithNul]
    exact h.room
  have hreplace : dest.replaceListDestroysSrc src =
      Invlist.setLen ⟨Invlist.endWithNul src.slots, dest.cur, src.isOffset, 0⟩ src.len
        src.isOffset := rfl
  rw [hreplace, h.len]
  rcases h with ⟨-, hnil⟩ | ⟨o, hstores, hxs, hwell⟩
  · rw [hnil]
    exact .inl ⟨⟨rfl, hroom, le_rfl⟩, rfl⟩
  · obtain ⟨rest, hslots⟩ := hstores.slots
    have hne : rest ≠ [] := by
      intro hnil
      rw [Spare, hstores.cur, hslots, hnil, List.append_nil, List.length_append] at hspare
      exact absurd hspare (lt_irrefl _)
    rw [hslots, endWithNul_append hne] at hroom ⊢
    rw [hstores.isOffset]
    exact Laid.holds ⟨rfl, ⟨_, rfl⟩, le_rfl⟩ hroom hxs hwell

theorem wellOffset_zero (xs : List Nat) : WellOffset false (0 :: xs) := iff_of_true rfl rfl

theorem everything_spec (h : Empty l) (junk : Nat) :
    ∃ l', l.appendRange junk 0 uvMax = .ok l' ∧ Holds l' [0] ∧ Spare l' := by
  obtain ⟨l', happend, hstores, hmore⟩ := h.appendRange junk 0 uvMax
  have hcanonical : Canonical [0] :=
    ⟨List.pairwise_singleton _ _, fun x hx => (List.mem_singleton.1 hx).trans_le (Nat.zero_le _)⟩
  refine ⟨l', happend, .inr ⟨false, hstores, hcanonical, wellOffset_zero []⟩, ?_⟩
  rw [Spare, hstores.cur]
  exact hmore

theorem WellOffset.complement (h : WellOffset o xs) (hxs : Canonical xs) :
    WellOffset (!o) (complement xs) := by
  rw [InversionList.complement]
  cases o with
  | false =>
    obtain ⟨ys, hys⟩ := List.head?_eq_some_iff.1 (h.1 rfl)
    subst hys
    rw [if_pos List.head?_cons, List.tail_cons]
    refine iff_of_false Bool.noConfusion fun hzero => ?_
    have hlt := (List.pairwise_cons.1 hxs.strict).1 0 (List.mem_of_mem_head? hzero)
    exact absurd hlt (lt_irrefl 0)
  | true =>
    rw [if_neg fun hzero => Bool.noConfusion (h.2 hzero)]
    exact wellOffset_zero xs

theorem hidden_complement (h : WellOffset o xs) :
    hidden (!o) ++ complement xs = hidden o ++ xs := by
  rw [complement]
  cases o with
  | false =>
    obtain ⟨ys, hys⟩ := List.head?_eq_some_iff.1 (h.1 rfl)
    subst hys
    rfl
  | true =>
    rw [if_neg fun hzero => Bool.noConfusion (h.2 hzero)]
    rfl

theorem Holds.invert (h : Holds l xs) (junk : Nat) :
    ∃ l', l.invert junk = .ok l' ∧ Holds l' (complement xs) ∧ (Spare l → Spare l') := by
  by_cases hnil : xs = []
  · rw [hnil] at h ⊢
    obtain ⟨l', happend, hholds, hspare⟩ := everything_spec h.empty junk
    rw [Invlist.invert, if_pos h.empty.len]
    exact ⟨l', happend, hholds, fun _ => hspare⟩
  · obtain ⟨o, hstores, hxs, hwell⟩ := h.stores hnil
    obtain ⟨rest, hslots⟩ := hstores.slots
    rw [Invlist.invert, if_neg (h.len_eq_zero.not.2 hnil)]
    have hsame := hidden_complement hwell
    have hlength := congrArg List.length hsame
    rw [List.length_append, List.length_append] at hlength
    rw [← hsame] at hslots
    refine ⟨_, rfl, .inr ⟨!o, ⟨⟨?_, ⟨rest, hslots⟩, hstores.index⟩, ?_⟩, hxs.complement,
      hwell.complement hxs⟩, id⟩
    · exact congrArg not hstores.isOffset
    · exact hstores.cur.trans hlength.symm

def maybe (c : Bool) (xs : List Nat) : List Nat := if c then complement xs else xs

theorem Canonical.maybe (h : Canonical xs) (c : Bool) : Canonical (maybe c xs) := by
  cases c with
  | false => exact h
  | true => exact h.complement

theorem state_maybe (h : Canonical xs) (c : Bool) (v : Nat) :
    state false (maybe c xs) v = (c ^^ state false xs v) := by
  cases c with
  | false => exact (Bool.false_xor _).symm
  | true => exact (state_complement h v).trans (Bool.true_xor _).symm

theorem Holds.complementArray (h : Holds l xs) (hne : xs ≠ []) :
    l.complementArray = .ok (complement xs) := by
  obtain ⟨o, hstores, hxs, hwell⟩ := h.stores hne
  obtain ⟨x, ys, hcons⟩ := List.exists_cons_of_ne_nil hne
  have hread : l.read 0 = .ok x := by
    rw [hstores.read le_rfl (by rw [hcons, List.length_cons]; omega), hcons]
    rfl
  rw [Invlist.complementArray, bind_ok hread, h.array, complement, hcons, List.head?_cons]
  by_cases hx : x = 0
  · rw [if_pos hx, if_pos (congrArg some hx)]
  · have hoffset : o = true := by
      cases o with
      | true => rfl
      | false =>
        have hzero := hwell.1 rfl
        rw [hcons] at hzero
        exact absurd (Option.some.inj hzero) hx
    subst hoffset
    rw [if_neg hx, if_neg fun heq => hx (Option.some.inj heq), bind_ok hstores.read_hidden]

theorem Holds.maybeComplement (h : Holds l xs) (hne : xs ≠ []) (c : Bool) :
    l.maybeComplement c = .ok (maybe c xs) := by
  cases c with
  | false => exact congrArg Except.ok h.array
  | true => exact h.complementArray hne

theorem Holds.cloneMaybeInverted (h : Holds l xs) (junk : Nat) (c : Bool) :
    ∃ l', l.cloneMaybeInverted junk c = .ok l' ∧ Holds l' (maybe c xs) ∧ Spare l' := by
  have hclone := h.clone junk none
  have hspare := h.clone_spare junk none
  cases c with
  | false => exact ⟨_, rfl, hclone, hspare⟩
  | true =>
    obtain ⟨l', hinvert, hholds, hkeeps⟩ := hclone.invert junk
    exact ⟨l', hinvert, hholds, hkeeps hspare⟩

theorem Holds.trim (h : Holds l xs) : Holds l.trim xs := by
  rcases h with ⟨hblank, hnil⟩ | ⟨o, hstores, hxs⟩
  · exact .inl ⟨hblank.trim, hnil⟩
  · exact .inr ⟨o, hstores.trim, hxs⟩

theorem ofArray_spec (hxs : Canonical xs) (hn : xs.length ≤ n) (junk : Nat) {willHave0 : Bool}
    (hzero : willHave0 = true ↔ xs.head? = some 0) :
    ∃ l', Invlist.ofArray junk n willHave0 xs = .ok l' ∧ Holds l' xs ∧ Spare l' := by
  obtain ⟨hblank, hroom⟩ := new_blank junk n
  obtain ⟨l₁, hinit, hlaid, hcur, hlength⟩ := arrayInit_spec hblank.room hblank.index willHave0
  obtain ⟨rest, hslots⟩ := hlaid.slots
  have hhidden := length_hidden_le (!willHave0)
  have hoffset := hlaid.offset
  have hwell : WellOffset (!willHave0) xs := by
    rw [WellOffset, ← hzero, Bool.not_eq_false']
  have htake : l₁.slots.take l₁.offset = hidden (!willHave0) := by
    rw [hoffset, hslots, List.append_nil, List.take_left]
  rw [Invlist.ofArray, bind_ok hinit, if_pos (by omega), htake]
  dsimp only
  have hlaid' : Laid ⟨hidden (!willHave0) ++ xs ++ l₁.slots.drop (l₁.offset + xs.length), l₁.cur,
      l₁.isOffset, l₁.prevIndex⟩ (!willHave0) xs := ⟨hlaid.isOffset, ⟨_, rfl⟩, hlaid.index⟩
  generalize hbuilt : Invlist.mk (hidden (!willHave0) ++ xs ++
    l₁.slots.drop (l₁.offset + xs.length)) l₁.cur l₁.isOffset l₁.prevIndex = l₂ at hlaid' ⊢
  have hcur₂ : l₂.cur = 0 := by
    rw [← hbuilt]
    exact hcur.trans hblank.cur
  have hslots₂ : n + 2 ≤ l₂.slots.length := by
    rw [← hbuilt]
    dsimp only
    rw [List.length_append, List.length_append, List.length_drop]
    omega
  have hlen : l₂.len = 0 := if_pos hcur₂
  rw [hlen, hlaid.isOffset]
  by_cases hnil : xs.length = 0
  · rw [if_neg (not_not.2 hnil)]
    have hblank₂ : Blank l₂ := ⟨hcur₂, by omega, hlaid'.index⟩
    exact ⟨l₂, rfl, .inl ⟨hblank₂, List.length_eq_zero_iff.1 hnil⟩, by rw [Spare]; omega⟩
  · rw [if_pos hnil]
    have hholds := hlaid'.holds (by omega) hxs hwell
    have hspare : Spare (l₂.setLen xs.length (!willHave0)) := by
      refine (setLen_cur_le _ _ _).trans_lt ?_
      change _ < l₂.slots.length
      omega
    exact ⟨_, rfl, hholds.trim, hspare.trim⟩

variable {a b : Invlist} {zs : List Nat} {output : Option Output}

/-- The list behind `*output` is canonical, and the first operand if it is meant to be. -/
def Invlist.Output.Fits (o : Output) (a : Option Invlist) : Prop :=
  Valid o.list ∧ (o.isA = true → a = some o.list)

def HoldsOption (a : Option Invlist) (xs : List Nat) : Prop :=
  match a with
  | none => xs = []
  | some a => Holds a xs

theorem Holds.give (h : Holds l xs) (hspare : Spare l) (output : Option Output) :
    Holds (give output l) xs := by
  cases output with
  | none => exact h
  | some o => exact h.replace hspare o.list

theorem giveEmpty_holds (hfits : ∀ o, output = some o → Valid o.list) (junk : Nat) :
    Holds (giveEmpty junk output) [] := by
  cases output with
  | none => exact new_holds junk 0
  | some o =>
    obtain ⟨xs, hxs⟩ := hfits o rfl
    exact hxs.clear

theorem Holds.put_clone {o : Output} (h : Holds a xs) (hfits : o.Fits (some a)) (junk : Nat) :
    Holds (if o.isA then o.list else o.list.replaceListDestroysSrc (a.clone junk none)) xs := by
  cases hisA : o.isA with
  | false => exact (h.clone junk none).replace (h.clone_spare junk none) o.list
  | true =>
    rw [if_pos rfl, ← Option.some.inj (hfits.2 hisA)]
    exact h

section Union

variable {a : Option Invlist} {c : Bool}

theorem union_of_nil (ha : HoldsOption a xs) (hb : Holds b [])
    (hfits : ∀ o, output = some o → o.Fits a) (junk : Nat) (c : Bool) :
    ∃ u zs, union junk a b c output = .ok u ∧ Holds u zs ∧
      ∀ v, state false zs v = (state false xs v || c) := by
  have hvalid : ∀ o, output = some o → Valid o.list := fun o ho => (hfits o ho).1
  unfold Invlist.union
  rw [if_pos (hb.len_eq_zero.2 rfl)]
  cases c with
  | true =>
    obtain ⟨l, hl, hholds, hspare⟩ := everything_spec (.inl (new_blank junk 2).1) junk
    rw [if_pos rfl, ofRange, bind_ok hl]
    refine ⟨_, [0], rfl, hholds.give hspare output, fun v => ?_⟩
    rw [state_of_le (Nat.zero_le v), Bool.or_true]
    rfl
  | false =>
    rw [if_neg Bool.false_ne_true]
    cases a with
    | none =>
      refine ⟨_, [], rfl, giveEmpty_holds hvalid junk, fun v => ?_⟩
      rw [show xs = [] from ha]
      rfl
    | some a =>
      have hstate : ∀ v, state false xs v = (state false xs v || false) :=
        fun v => (Bool.or_false _).symm
      have hlen := Holds.len_eq_zero ha
      dsimp only
      by_cases hxs : xs = []
      · rw [if_pos (hlen.2 hxs)]
        rw [hxs] at hstate ⊢
        exact ⟨_, [], rfl, giveEmpty_holds hvalid junk, hstate⟩
      · rw [if_neg (hlen.not.2 hxs)]
        cases output with
        | none => exact ⟨_, xs, rfl, Holds.clone ha junk none, hstate⟩
        | some o => exact ⟨_, xs, rfl, Holds.put_clone ha (hfits o rfl) junk, hstate⟩

theorem union_of_copy (ha : HoldsOption a []) (hb : Holds b ys) (hys : ys ≠ [])
    (output : Option Output) (junk : Nat) (c : Bool) :
    ∃ u, union junk a b c output = .ok u ∧ Holds u (maybe c ys) := by
  obtain ⟨dest, hdest, hholds, hspare⟩ := hb.cloneMaybeInverted junk c
  unfold Invlist.union
  rw [if_neg (hb.len_eq_zero.not.2 hys)]
  cases a with
  | none =>
    dsimp only
    rw [bind_ok hdest]
    exact ⟨_, rfl, hholds.give hspare output⟩
  | some a =>
    have hlen : ((some a).map len).getD 0 = 0 := Holds.len ha
    dsimp only
    rw [if_pos hlen, bind_ok hdest]
    exact ⟨_, rfl, hholds.give hspare output⟩

theorem union_of_merge {a : Invlist} (ha : Holds a xs) (hxs : xs ≠ []) (hb : Holds b ys)
    (hys : ys ≠ []) (output : Option Output) (junk : Nat) (c : Bool) :
    ∃ u, union junk (some a) b c output = .ok u ∧ Holds u (unionArray xs (maybe c ys)) := by
  have hcys := hb.canonical.maybe c
  obtain ⟨hcanonical, hstate⟩ := unionArray_spec ha.canonical hcys
  have hzero : (has0 xs || has0 (maybe c ys)) = true ↔
      (unionArray xs (maybe c ys)).head? = some 0 := by
    rw [Bool.or_eq_true, has0_iff, has0_iff, ← state_zero hcanonical, hstate, Bool.or_eq_true,
      state_zero ha.canonical, state_zero hcys]
  have hroom : (unionArray xs (maybe c ys)).length ≤ xs.length + (maybe c ys).length := by
    rw [unionArray_eq]
    exact length_walk_le _ _ _ _ _ _
  obtain ⟨u, hu, hholds, hspare⟩ := ofArray_spec hcanonical hroom junk hzero
  have hlen : ((some a).map len).getD 0 = xs.length := ha.len
  unfold Invlist.union
  rw [if_neg (hb.len_eq_zero.not.2 hys)]
  dsimp only
  rw [hlen, if_neg (List.length_eq_zero_iff.not.2 hxs), bind_ok (hb.maybeComplement hys c),
    ha.array, bind_ok hu]
  exact ⟨_, rfl, hholds.give hspare output⟩

theorem union_spec (ha : HoldsOption a xs) (hb : Holds b ys)
    (hfits : ∀ o, output = some o → o.Fits a) (junk : Nat) (c : Bool) :
    ∃ u zs, union junk a b c output = .ok u ∧ Holds u zs ∧
      ∀ v, state false zs v = (state false xs v || (c ^^ state false ys v)) := by
  by_cases hys : ys = []
  · subst hys
    obtain ⟨u, zs, hu, hholds, hstate⟩ := union_of_nil ha hb hfits junk c
    refine ⟨u, zs, hu, hholds, fun v => (hstate v).trans ?_⟩
    rw [state, Bool.xor_false]
  by_cases hxs : xs = []
  · subst hxs
    obtain ⟨u, hu, hholds⟩ := union_of_copy ha hb hys output junk c
    refine ⟨u, _, hu, hholds, fun v => ?_⟩
    rw [state_maybe hb.canonical]
    rfl
  · cases a with
    | none => exact absurd ha hxs
    | some a =>
      obtain ⟨u, hu, hholds⟩ := union_of_merge ha hxs hb hys output junk c
      refine ⟨u, _, hu, hholds, fun v => ?_⟩
      rw [(unionArray_spec (Holds.canonical ha) (hb.canonical.maybe c)).2,
        state_maybe hb.canonical]

end Union

section Intersection

variable {a : Option Invlist} {c : Bool}

theorem intersection_of_nil {a : Invlist} (ha : Holds a xs) (hb : Holds b ys)
    (hnil : xs = [] ∨ ys = []) (hfits : ∀ o, output = some o → o.Fits (some a)) (junk : Nat)
    (c : Bool) :
    ∃ u zs, intersection junk (some a) b c output = .ok u ∧ Holds u zs ∧
      ∀ v, state false zs v = (state false xs v && (c ^^ state false ys v)) := by
  unfold Invlist.intersection
  dsimp only
  rw [if_pos (hnil.imp ha.len_eq_zero.2 hb.len_eq_zero.2)]
  by_cases hall : xs ≠ [] ∧ c = true
  · obtain ⟨hxs, hc⟩ := hall
    have hys := hnil.resolve_left hxs
    rw [if_pos ⟨ha.len_eq_zero.not.2 hxs, hc⟩, hys, hc]
    have hstate : ∀ v, state false xs v = (state false xs v && (true ^^ state false [] v)) :=
      fun v => (Bool.and_true _).symm
    cases output with
    | none => exact ⟨_, xs, rfl, ha.clone junk none, hstate⟩
    | some o => exact ⟨_, xs, rfl, ha.put_clone (hfits o rfl) junk, hstate⟩
  · rw [if_neg fun h => hall ⟨ha.len_eq_zero.not.1 h.1, h.2⟩]
    refine ⟨_, [], rfl, giveEmpty_holds (fun o ho => (hfits o ho).1) junk, fun v => ?_⟩
    by_cases hxs : xs = []
    · rw [hxs]
      rfl
    · have hc : c = false := Bool.eq_false_iff.2 fun hc => hall ⟨hxs, hc⟩
      rw [hnil.resolve_left hxs, hc]
      exact (Bool.and_false _).symm

theorem intersection_of_merge {a : Invlist} (ha : Holds a xs) (hxs : xs ≠ []) (hb : Holds b ys)
    (hys : ys ≠ []) (junk : Nat) (c : Bool) (hvalid : ∀ o, output = some o → Valid o.list) :
    ∃ u, intersection junk (some a) b c output = .ok u ∧
      Holds u (intersectionArray xs (maybe c ys)) := by
  have hcys := hb.canonical.maybe c
  obtain ⟨hcanonical, hstate⟩ := intersectionArray_spec ha.canonical hcys
  have hzero : (has0 xs && has0 (maybe c ys)) = true ↔
      (intersectionArray xs (maybe c ys)).head? = some 0 := by
    rw [Bool.and_eq_true, has0_iff, has0_iff, ← state_zero hcanonical, hstate, Bool.and_eq_true,
      state_zero ha.canonical, state_zero hcys]
  have hroom : (intersectionArray xs (maybe c ys)).length ≤ xs.length + (maybe c ys).length := by
    rw [intersectionArray_eq]
    exact length_walk_le _ _ _ _ _ _
  obtain ⟨r, hr, hholds, hspare⟩ := ofArray_spec hcanonical hroom junk hzero
  unfold Invlist.intersection
  dsimp only
  rw [if_neg (not_or.2 ⟨ha.len_eq_zero.not.2 hxs, hb.len_eq_zero.not.2 hys⟩),
    bind_ok (hb.maybeComplement hys c), ha.array, ha.len, bind_ok hr]
  cases output with
  | none => exact ⟨r, rfl, hholds⟩
  | some o =>
    refine ⟨_, rfl, ?_⟩
    by_cases hempty : r.len = 0
    · rw [if_neg (not_not.2 hempty), hholds.len_eq_zero.1 hempty]
      obtain ⟨os, hos⟩ := hvalid o rfl
      exact hos.clear
    · rw [if_pos hempty]
      exact hholds.replace hspare o.list

theorem intersection_spec (ha : HoldsOption a xs) (hb : Holds b ys)
    (hfits : ∀ o, output = some o → o.Fits a) (junk : Nat) (c : Bool) :
    ∃ u zs, intersection junk a b c output = .ok u ∧ Holds u zs ∧
      ∀ v, state false zs v = (state false xs v && (c ^^ state false ys v)) := by
  have hvalid : ∀ o, output = some o → Valid o.list := fun o ho => (hfits o ho).1
  cases a with
  | none =>
    refine ⟨_, [], rfl, giveEmpty_holds hvalid junk, fun v => ?_⟩
    rw [show xs = [] from ha]
    rfl
  | some a =>
    by_cases hnil : xs = [] ∨ ys = []
    · exact intersection_of_nil ha hb hnil hfits junk c
    · obtain ⟨hxs, hys⟩ := not_or.1 hnil
      obtain ⟨u, hu, hholds⟩ := intersection_of_merge ha hxs hb hys junk c hvalid
      refine ⟨u, _, hu, hholds, fun v => ?_⟩
      rw [(intersectionArray_spec (Holds.canonical ha) (hb.canonical.maybe c)).2,
        state_maybe hb.canonical]

end Intersection

end XPerl.InversionList
