import Mathlib.Data.List.Lemmas
import Mathlib.Order.Bounds.Defs
import XPerl.InversionList.Adding

/-! The lists of a program behind their pointers, and the runs of the operations on them. -/

namespace XPerl.InversionList

open XPerl.Framework.Switches Invlist

/-- All lists; a pointer says which one. -/
abbrev Heap := List Invlist

def Heap.lookup (h : Heap) : Option Nat → Option (Option Invlist)
  | none => some none
  | some p => (h[p]?).map some

/-- A list comes behind a pointer, or behind a new one in place of `NULL`. -/
def Heap.put (h : Heap) (p : Option Nat) (l : Invlist) : Heap × Nat :=
  match p with
  | none => (h ++ [l], h.length)
  | some p => (h.set p l, p)

/-- Union or intersection of the lists behind pointers, put behind `output`. -/
def Heap.combine (h : Heap) (junk : Nat)
    (f : Nat → Option Invlist → Invlist → Bool → Option Output → Except Fault Invlist)
    (a : Option Nat) (b : Nat) (complementB : Bool) (output : Option Nat) :
    Option (Except Fault (Heap × Nat)) := do
  let listA ← h.lookup a
  let listB ← h[b]?
  let out ← h.lookup output
  let isA : Bool := output = a
  some ((f junk listA listB complementB (out.map fun o => ⟨o, isA⟩)).map (h.put output))

/-- A call of the inversion list interface. -/
inductive Operation where
  | addRange (invlist : Option Nat) (start stop : Nat)
  | union (a : Option Nat) (b : Nat) (complementB : Bool) (output : Option Nat)
  | intersection (a : Option Nat) (b : Nat) (complementB : Bool) (output : Option Nat)
  | invert (invlist : Nat)
  | clone (invlist : Nat) (newInvlist : Option Nat)
  | search (invlist : Nat) (cp : Nat)

/-- What a call makes of the lists, and the list it returns or puts out; nothing for a pointer that
has no list behind it. -/
def step (junk : Nat) (h : Heap) : Operation → Option (Except Fault (Heap × Nat))
  | .addRange p start stop => do
    let invlist ← h.lookup p
    some ((addRange junk invlist start stop).map (h.put p))
  | .union a b complementB output => h.combine junk union a b complementB output
  | .intersection a b complementB output => h.combine junk intersection a b complementB output
  | .invert p => do
    let l ← h[p]?
    some ((l.invert junk).map (h.put (some p)))
  | .clone p newInvlist => do
    let l ← h[p]?
    let target ← h.lookup newInvlist
    some (.ok (h.put newInvlist (l.clone junk target)))
  | .search p cp => do
    let l ← h[p]?
    some ((l.search cp).map fun r => h.put (some p) r.2)

def Operation.InOrder : Operation → Prop
  | .addRange _ start stop => start ≤ stop ∧ stop ≤ uvMax
  | _ => True

/-- The lists that sequences of calls produce. -/
inductive Reachable (junk : Nat) : Heap → Prop where
  | start : Reachable junk []
  | step {h h' : Heap} {p : Nat} (hreach : Reachable junk h) (op : Operation) (hop : op.InOrder)
      (hstep : step junk h op = some (.ok (h', p))) : Reachable junk h'

variable {h h' : Heap} {l l' a b : Invlist} {p q junk n v : Nat} {xs ys : List Nat}

/-- All lists are canonical. -/
def Heap.AllValid (h : Heap) : Prop := ∀ l ∈ h, Valid l

variable {o output : Option Nat} {found listA out : Option Invlist}

theorem lookup_cases (h' : h.lookup o = some found) :
    (o = none ∧ found = none) ∨ ∃ p l, o = some p ∧ found = some l ∧ h[p]? = some l := by
  cases o with
  | none => exact .inl ⟨rfl, (Option.some.inj h').symm⟩
  | some p =>
    obtain ⟨l, hl, hfound⟩ := Option.map_eq_some_iff.1 h'
    exact .inr ⟨p, l, rfl, hfound.symm, hl⟩

theorem Heap.AllValid.lookup (hh : h.AllValid)
    (h' : h.lookup o = some found) : ∀ l, found = some l → Valid l := by
  intro l hl
  rcases lookup_cases h' with ⟨-, hnone⟩ | ⟨p, l', -, hsome, hget⟩
  · rw [hnone] at hl
    cases hl
  · rw [hsome] at hl
    exact hh l (Option.some.inj hl ▸ List.mem_of_getElem? hget)

theorem Heap.AllValid.put (hh : h.AllValid) (hl : Valid l) (p : Option Nat) :
    (h.put p l).1.AllValid := by
  intro l' hl'
  cases p with
  | none =>
    rcases List.mem_append.1 hl' with hmem | hmem
    · exact hh l' hmem
    · rw [List.mem_singleton.1 hmem]
      exact hl
  | some p =>
    rcases List.mem_or_eq_of_mem_set hl' with hmem | heq
    · exact hh l' hmem
    · rw [heq]
      exact hl

theorem put_self (ho : ∀ p, o = some p → p < h.length) (l : Invlist) :
    (h.put o l).1[(h.put o l).2]? = some l := by
  cases o with
  | none => exact List.getElem?_concat_length
  | some p => exact List.getElem?_set_self (ho p rfl)

theorem put_other (hq : q < h.length) (hne : o ≠ some q) (l : Invlist) :
    (h.put o l).1[q]? = h[q]? := by
  cases o with
  | none => exact List.getElem?_append_left hq
  | some p => exact List.getElem?_set_ne fun heq => hne (congrArg some heq)

/-- The set of a list or of its complement. -/
def MemMaybe (c : Bool) (l : Invlist) (cp : Nat) : Prop := if c then ¬ l.Mem cp else l.Mem cp

/-- A call puts out a canonical list with the given set, and all other lists are as before. -/
def Gives (h : Heap) (output : Option Nat) (r : Option (Except Fault (Heap × Nat)))
    (set : Nat → Prop) : Prop :=
  ∃ h' p l, r = some (.ok (h', p)) ∧ (output = some p ∨ (output = none ∧ p = h.length)) ∧
    h'[p]? = some l ∧ Valid l ∧ Canonical l.array ∧ (∀ cp, cp ≤ uvMax → (l.Mem cp ↔ set cp)) ∧
    ∀ q, q < h.length → output ≠ some q → h'[q]? = h[q]?

theorem Holds.memMaybe (h : Holds l xs) (c : Bool) (cp : Nat) :
    MemMaybe c l cp ↔ (c ^^ state false xs cp) = true := by
  rw [MemMaybe, h.mem]
  cases c <;> simp

theorem put_pointer (h : Heap) (o : Option Nat) (l : Invlist) :
    o = some (h.put o l).2 ∨ (o = none ∧ (h.put o l).2 = h.length) := by
  cases o with
  | none => exact .inr ⟨rfl, rfl⟩
  | some p => exact .inl rfl

theorem output_fits (hh : h.AllValid) {a : Option Nat}
    (ha : h.lookup a = some listA) (hout : h.lookup output = some out) :
    ∀ o, (out.map fun o => Output.mk o (decide (output = a))) = some o → o.Fits listA := by
  intro o ho
  obtain ⟨l, hl, hmk⟩ := Option.map_eq_some_iff.1 ho
  subst hmk
  refine ⟨hh.lookup hout l hl, fun hisA => ?_⟩
  have heq : output = a := of_decide_eq_true hisA
  rw [heq, ha, hl] at hout
  exact Option.some.inj hout

theorem lookup_lt (h' : h.lookup o = some found) :
    ∀ p, o = some p → p < h.length := by
  intro p hp
  rcases lookup_cases h' with ⟨hnone, -⟩ | ⟨p', l, hsome, -, hget⟩
  · rw [hnone] at hp
    cases hp
  · rw [hsome] at hp
    rw [← Option.some.inj hp]
    exact (List.getElem?_eq_some_iff.1 hget).1

def Makes (junk : Nat)
    (f : Nat → Option Invlist → Invlist → Bool → Option Output → Except Fault Invlist)
    (op : Bool → Bool → Bool) : Prop :=
  ∀ {a : Option Invlist} {b : Invlist} {xs ys : List Nat} {c : Bool} {output : Option Output},
    HoldsOption a xs → Holds b ys → (∀ o, output = some o → o.Fits a) →
      ∃ u zs, f junk a b c output = .ok u ∧ Holds u zs ∧
        ∀ v, state false zs v = op (state false xs v) (c ^^ state false ys v)

variable {f : Nat → Option Invlist → Invlist → Bool → Option Output → Except Fault Invlist}
  {cp : Nat} {i : Int}

theorem combine_eq
    {op : Bool → Bool → Bool} (hf : Makes junk f op) (hh : h.AllValid) {a : Option Nat}
    (ha : h.lookup a = some listA) (hb : h[q]? = some b)
    (hout : h.lookup output = some out) (hxs : HoldsOption listA xs) (hys : Holds b ys) (c : Bool) :
    ∃ u zs, h.combine junk f a q c output = some (.ok (h.put output u)) ∧ Holds u zs ∧
      ∀ v, state false zs v = op (state false xs v) (c ^^ state false ys v) := by
  obtain ⟨u, zs, hu, hzs, hstate⟩ := hf (c := c) hxs hys (output_fits hh ha hout)
  refine ⟨u, zs, ?_, hzs, hstate⟩
  rw [Heap.combine, ha, hb, hout]
  change some (Except.map (h.put output) (f junk listA b c _)) = _
  rw [hu]
  rfl

theorem combine_spec
    {op : Bool → Bool → Bool} (hf : Makes junk f op) (hh : h.AllValid) {a : Option Nat}
    (ha : h.lookup a = some listA) (hb : h[q]? = some b)
    (hout : h.lookup output = some out) (c : Bool) {set : Nat → Prop}
    (hset : ∀ xs ys cp, HoldsOption listA xs → Holds b ys →
      (set cp ↔ op (state false xs cp) (c ^^ state false ys cp) = true)) :
    Gives h output (h.combine junk f a q c output) set := by
  obtain ⟨xs, hxs⟩ := HoldsOption.of_valid (hh.lookup ha)
  obtain ⟨ys, hys⟩ := hh b (List.mem_of_getElem? hb)
  obtain ⟨u, zs, hcombine, hzs, hstate⟩ := combine_eq hf hh ha hb hout hxs hys c
  refine ⟨(h.put output u).1, (h.put output u).2, u, hcombine, put_pointer h output u,
    put_self (lookup_lt hout) u, ⟨zs, hzs⟩, ?_, fun cp _ => ?_, fun q hq hne => put_other hq hne u⟩
  · rw [hzs.array]
    exact hzs.canonical
  · rw [hzs.mem, hstate, hset xs ys cp hxs hys]

theorem union_makes (junk : Nat) : Makes junk union (· || ·) := fun ha hb hfits =>
  union_spec ha hb hfits junk _

theorem intersection_makes (junk : Nat) : Makes junk intersection (· && ·) := fun ha hb hfits =>
  intersection_spec ha hb hfits junk _

/-- Union and intersection are those of the sets, whatever the output is. -/
theorem set_operations_exact (h : Heap) (hh : h.AllValid) (a output : Option Nat) (b junk : Nat)
    (complementB : Bool) (listA out : Option Invlist) (listB : Invlist)
    (ha : h.lookup a = some listA) (hb : h[b]? = some listB) (hout : h.lookup output = some out) :
    Gives h output (step junk h (.union a b complementB output))
        (fun cp => MemOption listA cp ∨ MemMaybe complementB listB cp) ∧
      Gives h output (step junk h (.intersection a b complementB output))
        (fun cp => MemOption listA cp ∧ MemMaybe complementB listB cp) := by
  refine ⟨combine_spec (union_makes junk) hh ha hb hout complementB fun xs ys cp hxs hys => ?_,
    combine_spec (intersection_makes junk) hh ha hb hout complementB fun xs ys cp hxs hys => ?_⟩
  · rw [hxs.mem, hys.memMaybe, Bool.or_eq_true]
  · rw [hxs.mem, hys.memMaybe, Bool.and_eq_true]

/-- The lists of 5..9 and of 8..20, of which the second is the output. -/
theorem set_operations_five :
    Gives [⟨[0, 5, 10, 7], 3, true, 0⟩, ⟨[0, 8, 21, 7], 3, true, 0⟩] (some 1)
        (step 7 [⟨[0, 5, 10, 7], 3, true, 0⟩, ⟨[0, 8, 21, 7], 3, true, 0⟩]
          (.union (some 0) 1 true (some 1)))
        (fun cp => MemOption (some ⟨[0, 5, 10, 7], 3, true, 0⟩) cp ∨
          MemMaybe true ⟨[0, 8, 21, 7], 3, true, 0⟩ cp) ∧
      Gives [⟨[0, 5, 10, 7], 3, true, 0⟩, ⟨[0, 8, 21, 7], 3, true, 0⟩] (some 1)
        (step 7 [⟨[0, 5, 10, 7], 3, true, 0⟩, ⟨[0, 8, 21, 7], 3, true, 0⟩]
          (.intersection (some 0) 1 true (some 1)))
        (fun cp => MemOption (some ⟨[0, 5, 10, 7], 3, true, 0⟩) cp ∧
          MemMaybe true ⟨[0, 8, 21, 7], 3, true, 0⟩ cp) := by
  refine set_operations_exact _ (fun l hl => ?_) (some 0) (some 1) 1 7 true _ _ _ rfl rfl rfl
  rcases List.mem_cons.1 hl with heq | hl
  · rw [heq]
    exact ⟨[5, 10], .inr ⟨true, ⟨⟨rfl, ⟨[7], rfl⟩, by decide⟩, rfl⟩, ⟨by decide, by decide⟩,
      by rw [WellOffset]; decide⟩⟩
  · rw [List.mem_singleton.1 hl]
    exact ⟨[8, 21], .inr ⟨true, ⟨⟨rfl, ⟨[7], rfl⟩, by decide⟩, rfl⟩, ⟨by decide, by decide⟩,
      by rw [WellOffset]; decide⟩⟩

section Runs

variable {op : Operation} {r : Except Fault (Heap × Nat)}

/-- A call that ends with all lists canonical. -/
def Sound (r : Except Fault (Heap × Nat)) : Prop := ∃ h' p, r = .ok (h', p) ∧ Heap.AllValid h'

theorem Heap.AllValid.sound (hh : h.AllValid) (hl : Valid l) (p : Option Nat) :
    Sound (.ok (h.put p l)) := ⟨_, _, rfl, hh.put hl p⟩

theorem combine_sound
    {f : Nat → Option Invlist → Invlist → Bool → Option Output → Except Fault Invlist}
    {op : Bool → Bool → Bool} (hf : Makes junk f op) (hh : h.AllValid) {a output : Option Nat}
    {c : Bool} (hr : h.combine junk f a q c output = some r) : Sound r := by
  obtain ⟨listA, ha, hr'⟩ := Option.bind_eq_some_iff.1 hr
  obtain ⟨b, hb, hr'⟩ := Option.bind_eq_some_iff.1 hr'
  obtain ⟨out, hout, -⟩ := Option.bind_eq_some_iff.1 hr'
  obtain ⟨xs, hxs⟩ := HoldsOption.of_valid (hh.lookup ha)
  obtain ⟨ys, hys⟩ := hh b (List.mem_of_getElem? hb)
  obtain ⟨u, zs, hcombine, hzs, -⟩ := combine_eq hf hh ha hb hout hxs hys c
  rw [hcombine] at hr
  rw [← Option.some.inj hr]
  exact hh.sound ⟨zs, hzs⟩ output

theorem Added.valid {start stop : Nat} (h : Added l xs start stop) : Valid l := by
  obtain ⟨zs, hzs, -⟩ := h
  exact ⟨zs, hzs⟩

theorem Searched.holds {o : Bool} {cp : Nat} {found : Int × Invlist}
    (h : Searched l o xs cp found) (hxs : Canonical xs) (hwell : WellOffset o xs) :
    Holds found.2 xs := .inr ⟨o, h.stores, hxs, hwell⟩

theorem Holds.search (h : Holds l xs) (cp : Nat) :
    ∃ i l', l.search cp = .ok (i, l') ∧ Holds l' xs ∧ Located xs cp i := by
  by_cases hnil : xs = []
  · subst hnil
    refine ⟨-1, l, ?_, h, [], [], rfl, rfl, by simp, by simp⟩
    have hlen : (l.len : Int) = 0 := congrArg Nat.cast h.empty.len
    rw [Invlist.search, if_pos hlen]
  · obtain ⟨o, hstores, hxs, hwell⟩ := h.stores hnil
    obtain ⟨found, hfound, hsearched⟩ := hstores.search hxs.strict cp
    exact ⟨found.1, found.2, hfound, hsearched.holds hxs hwell, hsearched.located⟩

theorem step_sound (hh : h.AllValid) (hop : op.InOrder) (hstep : step junk h op = some r) :
    Sound r := by
  cases op with
  | addRange p start stop =>
    obtain ⟨found, hfound, hr⟩ := Option.bind_eq_some_iff.1 hstep
    obtain ⟨xs, hxs⟩ := HoldsOption.of_valid (hh.lookup hfound)
    obtain ⟨l', hadd, hadded⟩ := addRange_holds hxs hop.1 hop.2 junk
    rw [← Option.some.inj hr, hadd]
    exact hh.sound hadded.valid p
  | union a b c output => exact combine_sound (union_makes junk) hh hstep
  | intersection a b c output => exact combine_sound (intersection_makes junk) hh hstep
  | invert p =>
    obtain ⟨l, hl, hr⟩ := Option.bind_eq_some_iff.1 hstep
    obtain ⟨xs, hxs⟩ := hh l (List.mem_of_getElem? hl)
    obtain ⟨l', hinvert, hholds, -⟩ := hxs.invert junk
    rw [← Option.some.inj hr, hinvert]
    exact hh.sound ⟨_, hholds⟩ (some p)
  | clone p newInvlist =>
    obtain ⟨l, hl, hr⟩ := Option.bind_eq_some_iff.1 hstep
    obtain ⟨target, -, hr⟩ := Option.bind_eq_some_iff.1 hr
    obtain ⟨xs, hxs⟩ := hh l (List.mem_of_getElem? hl)
    rw [← Option.some.inj hr]
    exact hh.sound ⟨_, hxs.clone junk target⟩ newInvlist
  | search p cp =>
    obtain ⟨l, hl, hr⟩ := Option.bind_eq_some_iff.1 hstep
    obtain ⟨xs, hxs⟩ := hh l (List.mem_of_getElem? hl)
    obtain ⟨i, l', hsearch, hholds, -⟩ := hxs.search cp
    rw [← Option.some.inj hr, hsearch]
    exact hh.sound ⟨xs, hholds⟩ (some p)

theorem Reachable.valid (hr : Reachable junk h) : h.AllValid := by
  induction hr with
  | start => exact fun l hl => absurd hl List.not_mem_nil
  | step hreach op hop hstep ih =>
    obtain ⟨h', p, hok, hvalid⟩ := step_sound ih hop hstep
    have hsame := Except.ok.inj hok
    rw [(Prod.mk.inj hsame).1]
    exact hvalid

end Runs

/-- The index that a search is meant to give: the greatest one whose element is not above the code
point, or -1. -/
def Greatest (xs : List Nat) (cp : Nat) (i : Int) : Prop :=
  (i = -1 ∧ ∀ x ∈ xs, cp < x) ∨
    ∃ j : Nat, i = j ∧ IsGreatest {k | k < xs.length ∧ xs.getD k 0 ≤ cp} j

theorem Located.greatest (h : Located xs cp i) : Greatest xs cp i := by
  obtain ⟨as, bs, hxs, hlength, hbelow, habove⟩ := h
  subst hxs
  cases as with
  | nil =>
    rw [List.length_nil] at hlength
    exact .inl ⟨by omega, habove⟩
  | cons a as =>
    rw [List.length_cons] at hlength
    refine .inr ⟨as.length, by omega, ⟨?_, ?_⟩, fun k hk => ?_⟩
    · rw [List.length_append, List.length_cons]
      omega
    · rw [List.getD_append _ _ _ _ (Nat.lt_succ_self _)]
      exact hbelow _ (getD_mem (Nat.lt_succ_self _))
    · by_contra hlt
      have hlength' : (a :: as).length = as.length + 1 := List.length_cons
      obtain ⟨hk, hle⟩ := hk
      rw [List.length_append] at hk
      rw [List.getD_append_right _ _ _ _ (by omega)] at hle
      exact absurd hle (Nat.not_le.2 (habove _ (getD_mem (by omega))))

theorem Located.state (h : Located xs cp i) :
    (decide (0 ≤ i) && elementRangeMatches i) = state false xs cp := by
  obtain ⟨as, bs, hxs, hlength, hbelow, habove⟩ := h
  rw [hxs, state_append_lt habove, state_all_le hbelow, flips]
  rcases Nat.mod_two_eq_zero_or_one as.length with heven | hodd
  · rw [if_pos heven]
    by_cases hneg : 0 ≤ i
    · have hnot := not_matches (i := i) (by omega)
      rw [Bool.eq_false_iff.2 hnot, Bool.and_false]
    · rw [decide_eq_false hneg, Bool.false_and]
  · rw [if_neg (by omega), decide_eq_true (by omega), (matches_iff i).2 (by omega)]
    rfl

theorem Holds.containsCp (h : Holds l xs) (cp : Nat) :
    ∃ l', l.containsCp cp = .ok (state false xs cp, l') ∧ Holds l' xs := by
  obtain ⟨i, l', hsearch, hholds, hlocated⟩ := h.search cp
  refine ⟨l', ?_, hholds⟩
  rw [Invlist.containsCp, bind_ok hsearch, ← hlocated.state]

theorem decide_length_and (xs ys : List Nat) :
    (decide (xs.length = ys.length) && decide (xs = ys)) = decide (xs = ys) := by
  by_cases heq : xs = ys
  · rw [heq, decide_eq_true rfl, decide_eq_true rfl]
    rfl
  · rw [decide_eq_false heq, Bool.and_false]

theorem Holds.invlistEQ (ha : Holds a xs) (hb : Holds b ys) (c : Bool) :
    invlistEQ a b c = .ok (decide (xs = maybe c ys)) := by
  rw [Invlist.invlistEQ, ha.len, hb.len, ha.array, hb.array]
  by_cases hboth : xs.length = 0 ∧ ys.length = 0
  · rw [if_pos hboth, List.length_eq_zero_iff.1 hboth.1, List.length_eq_zero_iff.1 hboth.2]
    cases c <;> rfl
  rw [if_neg hboth]
  cases c with
  | false =>
    rw [if_neg Bool.false_ne_true, decide_length_and]
    rfl
  | true =>
    rw [if_pos rfl]
    by_cases hys : ys = []
    · subst hys
      have hxs : xs ≠ [] := fun hnil => hboth ⟨List.length_eq_zero_iff.2 hnil, rfl⟩
      obtain ⟨o, hstores, -⟩ := ha.stores hxs
      obtain ⟨x, rest, hcons⟩ := List.exists_cons_of_ne_nil hxs
      subst hcons
      have hread : a.read 0 = .ok x := by
        rw [hstores.read le_rfl (by rw [List.length_cons]; omega)]
        rfl
      rw [if_pos List.length_nil]
      change _ = Except.ok (decide (x :: rest = [0]))
      by_cases hone : (x :: rest).length = 1
      · have hrest : rest = [] := List.length_eq_zero_iff.1 (Nat.succ.inj hone)
        rw [if_pos hone, bind_ok hread, hrest]
        simp
      · rw [if_neg hone, decide_eq_false]
        intro heq
        rw [heq] at hone
        exact hone rfl
    · rw [if_neg (List.length_eq_zero_iff.not.2 hys), bind_ok (hb.complementArray hys),
        decide_length_and]
      rfl

theorem eq_maybe_iff (ha : Holds a xs) (hb : Holds b ys) (c : Bool) :
    xs = maybe c ys ↔ ∀ cp, cp ≤ uvMax → (a.Mem cp ↔ MemMaybe c b cp) := by
  have hsets : ∀ cp, (a.Mem cp ↔ MemMaybe c b cp) ↔
      state false xs cp = state false (maybe c ys) cp := by
    intro cp
    rw [ha.mem, hb.memMaybe, state_maybe hb.canonical]
    exact Bool.coe_iff_coe
  refine ⟨fun heq cp _ => (hsets cp).2 (by rw [← heq]), fun h => ?_⟩
  exact eq_of_sets ha.canonical (hb.canonical.maybe c) fun v hv => (hsets v).1 (h v hv)

/-- Whatever the calls before, a search ends with the index of the code point, so that it tells
membership, and lists compare as their sets do. -/
theorem search_ignores_cache (hr : Reachable junk h) :
    (∀ l ∈ h, ∀ cp, ∃ i l', l.search cp = .ok (i, l') ∧ Greatest l.array cp i ∧
      ∃ found l'', l.containsCp cp = .ok (found, l'') ∧ (found = true ↔ l.Mem cp)) ∧
    ∀ a ∈ h, ∀ b ∈ h, ∀ complementB, ∃ same, invlistEQ a b complementB = .ok same ∧
      (same = true ↔ ∀ cp, cp ≤ uvMax → (a.Mem cp ↔ MemMaybe complementB b cp)) := by
  refine ⟨fun l hl cp => ?_, fun a ha b hb c => ?_⟩
  · obtain ⟨xs, hxs⟩ := hr.valid l hl
    obtain ⟨i, l', hsearch, -, hlocated⟩ := hxs.search cp
    obtain ⟨l'', hcontains, -⟩ := hxs.containsCp cp
    refine ⟨i, l', hsearch, ?_, _, l'', hcontains, hxs.mem.symm⟩
    rw [hxs.array]
    exact hlocated.greatest
  · obtain ⟨xs, hxs⟩ := hr.valid a ha
    obtain ⟨ys, hys⟩ := hr.valid b hb
    exact ⟨_, hxs.invlistEQ hys c, decide_eq_true_iff.trans (eq_maybe_iff hxs hys c)⟩

/-- The lists after 5..9 and 20..30 are added, and the list is copied and inverted. -/
theorem search_ignores_cache_five :
    (∀ l ∈ [Invlist.mk [0, 5, 10, 20, 31, 7] 5 true 0, ⟨[0, 5, 10, 20, 31, 7], 5, false, 0⟩], ∀ cp,
      ∃ i l', l.search cp = .ok (i, l') ∧ Greatest l.array cp i ∧
        ∃ found l'', l.containsCp cp = .ok (found, l'') ∧ (found = true ↔ l.Mem cp)) ∧
    ∀ a ∈ [Invlist.mk [0, 5, 10, 20, 31, 7] 5 true 0, ⟨[0, 5, 10, 20, 31, 7], 5, false, 0⟩],
      ∀ b ∈ [Invlist.mk [0, 5, 10, 20, 31, 7] 5 true 0, ⟨[0, 5, 10, 20, 31, 7], 5, false, 0⟩],
        ∀ complementB, ∃ same, invlistEQ a b complementB = .ok same ∧
          (same = true ↔ ∀ cp, cp ≤ uvMax → (a.Mem cp ↔ MemMaybe complementB b cp)) := by
  have hadd : Reachable 7 [⟨[0, 5, 10, 7], 3, true, 0⟩] :=
    Reachable.start.step (.addRange none 5 9) ⟨by decide, by decide⟩ rfl
  have hmore : Reachable 7 [⟨[0, 5, 10, 20, 31, 7], 5, true, 0⟩] :=
    hadd.step (.addRange (some 0) 20 30) ⟨by decide, by decide⟩ rfl
  have hcopy : Reachable 7 [⟨[0, 5, 10, 20, 31, 7], 5, true, 0⟩,
      ⟨[0, 5, 10, 20, 31, 7], 5, true, 0⟩] :=
    hmore.step (.clone 0 none) trivial rfl
  have hinvert : Reachable 7 [⟨[0, 5, 10, 20, 31, 7], 5, true, 0⟩,
      ⟨[0, 5, 10, 20, 31, 7], 5, false, 0⟩] :=
    hcopy.step (.invert 1) trivial rfl
  exact search_ignores_cache hinvert

section Expressions

/-- A set built up from canonical lists by the operations. -/
inductive SetExpr where
  | list (l : Invlist)
  | range (e : SetExpr) (start stop : Nat)
  | invert (e : SetExpr)
  | union (e e' : SetExpr) (complementB : Bool)
  | intersection (e e' : SetExpr) (complementB : Bool)

namespace SetExpr

def Good : SetExpr → Prop
  | .list l => Valid l
  | .range e start stop => e.Good ∧ start ≤ stop ∧ stop ≤ uvMax
  | .invert e => e.Good
  | .union e e' _ => e.Good ∧ e'.Good
  | .intersection e e' _ => e.Good ∧ e'.Good

/-- What the expression means. -/
def Denotes : SetExpr → Nat → Prop
  | .list l, cp => l.Mem cp
  | .range e start stop, cp => e.Denotes cp ∨ (start ≤ cp ∧ cp ≤ stop)
  | .invert e, cp => ¬ e.Denotes cp
  | .union e e' c, cp => e.Denotes cp ∨ if c then ¬ e'.Denotes cp else e'.Denotes cp
  | .intersection e e' c, cp => e.Denotes cp ∧ if c then ¬ e'.Denotes cp else e'.Denotes cp

/-- What the functions make of it. -/
def eval (junk : Nat) : SetExpr → Except Fault Invlist
  | .list l => .ok l
  | .range e start stop => do
    let l ← e.eval junk
    addRange junk (some l) start stop
  | .invert e => do
    let l ← e.eval junk
    l.invert junk
  | .union e e' c => do
    let l ← e.eval junk
    let l' ← e'.eval junk
    Invlist.union junk (some l) l' c none
  | .intersection e e' c => do
    let l ← e.eval junk
    let l' ← e'.eval junk
    Invlist.intersection junk (some l) l' c none

variable {e e' : SetExpr}

theorem complemented_iff {b : Bool} {p : Prop} (h : b = true ↔ p) (c : Bool) :
    (c ^^ b) = true ↔ if c then ¬ p else p := by
  cases c <;> simp [← h]

/-- No evaluation fails, and the list that it ends with holds the set. -/
theorem eval_spec (h : e.Good) (junk : Nat) : ∃ l xs, e.eval junk = .ok l ∧ Holds l xs ∧
    ∀ cp, cp ≤ uvMax → (state false xs cp = true ↔ e.Denotes cp) := by
  have hfits : ∀ o, (none : Option Output) = some o → ∀ a, o.Fits a := fun o ho => by cases ho
  induction e with
  | list l =>
    obtain ⟨xs, hxs⟩ := h
    exact ⟨l, xs, rfl, hxs, fun cp _ => hxs.mem.symm⟩
  | range e start stop ih =>
    obtain ⟨l, xs, heval, hxs, hstate⟩ := ih h.1
    have hsome : HoldsOption (some l) xs := hxs
    obtain ⟨l', hadd, zs, hzs, hstate'⟩ := addRange_holds hsome h.2.1 h.2.2 junk
    refine ⟨l', zs, (bind_ok heval _).trans hadd, hzs, fun cp hcp => ?_⟩
    rw [hstate' cp hcp, Bool.or_eq_true, hstate cp hcp, decide_eq_true_eq, Denotes]
  | invert e ih =>
    obtain ⟨l, xs, heval, hxs, hstate⟩ := ih h
    obtain ⟨l', hinvert, hxs', -⟩ := hxs.invert junk
    refine ⟨l', _, (bind_ok heval _).trans hinvert, hxs', fun cp hcp => ?_⟩
    rw [state_complement hxs.canonical, Bool.not_eq_true', ← Bool.not_eq_true, hstate cp hcp,
      Denotes]
  | union e e' c ih ih' =>
    obtain ⟨l, xs, heval, hxs, hstate⟩ := ih h.1
    obtain ⟨l', ys, heval', hys, hstate'⟩ := ih' h.2
    have hsome : HoldsOption (some l) xs := hxs
    obtain ⟨u, zs, hu, hzs, hunion⟩ := union_spec hsome hys (fun o ho => hfits o ho _) junk c
    refine ⟨u, zs, (bind_ok heval _).trans ((bind_ok heval' _).trans hu), hzs, fun cp hcp => ?_⟩
    rw [hunion, Bool.or_eq_true, hstate cp hcp, complemented_iff (hstate' cp hcp), Denotes]
  | intersection e e' c ih ih' =>
    obtain ⟨l, xs, heval, hxs, hstate⟩ := ih h.1
    obtain ⟨l', ys, heval', hys, hstate'⟩ := ih' h.2
    have hsome : HoldsOption (some l) xs := hxs
    obtain ⟨u, zs, hu, hzs, hboth⟩ := intersection_spec hsome hys (fun o ho => hfits o ho _) junk c
    refine ⟨u, zs, (bind_ok heval _).trans ((bind_ok heval' _).trans hu), hzs, fun cp hcp => ?_⟩
    rw [hboth, Bool.and_eq_true, hstate cp hcp, complemented_iff (hstate' cp hcp), Denotes]

/-- Two ways to build a set end with the same array, and `invlistEQ_` tells sets apart. -/
theorem eval_normal (h : e.Good) (h' : e'.Good) (junk junk' : Nat) :
    ∃ l l' same, e.eval junk = .ok l ∧ e'.eval junk' = .ok l' ∧
      (l.array = l'.array ↔ ∀ cp, cp ≤ uvMax → (e.Denotes cp ↔ e'.Denotes cp)) ∧
      invlistEQ l l' false = .ok same ∧
      (same = true ↔ ∀ cp, cp ≤ uvMax → (e.Denotes cp ↔ e'.Denotes cp)) := by
  obtain ⟨l, xs, heval, hxs, hstate⟩ := eval_spec h junk
  obtain ⟨l', ys, heval', hys, hstate'⟩ := eval_spec h' junk'
  have hsets : (∀ cp, cp ≤ uvMax → (l.Mem cp ↔ MemMaybe false l' cp)) ↔
      ∀ cp, cp ≤ uvMax → (e.Denotes cp ↔ e'.Denotes cp) := by
    refine forall₂_congr fun cp hcp => ?_
    rw [← hstate cp hcp, ← hstate' cp hcp, hxs.mem, hys.memMaybe, Bool.false_xor]
  refine ⟨l, l', _, heval, heval', ?_, hxs.invlistEQ hys false,
    (decide_eq_true_iff.trans (eq_maybe_iff hxs hys false)).trans hsets⟩
  rw [hxs.array, hys.array]
  constructor
  · rintro rfl cp hcp
    rw [← hstate cp hcp, hstate' cp hcp]
  · intro hsame
    refine eq_of_sets hxs.canonical hys.canonical fun cp hcp => Bool.eq_iff_iff.2 ?_
    rw [hstate cp hcp, hstate' cp hcp, hsame cp hcp]

/-- Neither 5..9 nor 8..20, in two ways. -/
theorem eval_normal_neither : ∃ l l' same,
    (invert (.union (.list ⟨[0, 5, 10, 7], 3, true, 0⟩)
      (.list ⟨[0, 8, 21, 7], 3, true, 0⟩) false)).eval 7 = .ok l ∧
    (SetExpr.intersection (.invert (.list ⟨[0, 5, 10, 7], 3, true, 0⟩))
      (.list ⟨[0, 8, 21, 7], 3, true, 0⟩) true).eval 7 = .ok l' ∧ l.array = l'.array ∧
    invlistEQ l l' false = .ok same := by
  have hfive : Valid ⟨[0, 5, 10, 7], 3, true, 0⟩ := ⟨[5, 10], .inr ⟨true, ⟨⟨rfl, ⟨[7], rfl⟩,
    by decide⟩, rfl⟩, ⟨by decide, by decide⟩, by rw [WellOffset]; decide⟩⟩
  have height : Valid ⟨[0, 8, 21, 7], 3, true, 0⟩ := ⟨[8, 21], .inr ⟨true, ⟨⟨rfl, ⟨[7], rfl⟩,
    by decide⟩, rfl⟩, ⟨by decide, by decide⟩, by rw [WellOffset]; decide⟩⟩
  have hunion : (invert (.union (.list _) (.list _) false)).Good := ⟨hfive, height⟩
  have hboth : (intersection (.invert (.list _)) (.list _) true).Good := ⟨hfive, height⟩
  obtain ⟨l, l', same, heval, heval', harray, heq, -⟩ := eval_normal hunion hboth 7 7
  exact ⟨l, l', same, heval, heval', harray.2 fun cp _ => not_or, heq⟩

end SetExpr

end Expressions

end XPerl.InversionList
