import XPerl.InversionList.Layout

/-! Arrays merged along the common walk, searched from any index, and split around a range. -/

namespace XPerl.InversionList

open XPerl.Framework.Switches Invlist

variable {as bs out : List Nat} {iA iB count x : Nat} {op : Bool → Bool → Bool}
  {first : Bool → Bool} {p q : Bool}

def setCount (p q : Bool) : Nat := (if p then 1 else 0) + if q then 1 else 0

def odd (i : Nat) : Bool := i % 2 = 1

theorem odd_succ (i : Nat) : odd (i + 1) = !odd i := by
  rw [odd, odd, ← decide_not, decide_eq_decide]
  omega

theorem matches_eq (i : Nat) : elementRangeMatches i = !odd i := by
  rw [elementRangeMatches, odd, ← decide_not, decide_eq_decide]
  omega

theorem prevRangeMatches_eq (i : Nat) : prevRangeMatches i = odd i := by
  rw [prevRangeMatches, matches_eq, Bool.not_not]

/-- A merge keeps the count of sets, and puts a place out if the combined state changes there. -/
structure Puts (put : Nat → List Nat → Nat → Bool → Nat × List Nat) (op : Bool → Bool → Bool) :
    Prop where
  left : ∀ p q out x, put (setCount p q) out x (!p) =
    (setCount (!p) q, if op p q = op (!p) q then out else out ++ [x])
  right : ∀ p q out x, put (setCount p q) out x (!q) =
    (setCount p (!q), if op p q = op p (!q) then out else out ++ [x])

theorem putUnion_puts : Puts putUnion (· || ·) := by
  constructor <;> intro p q out x <;> cases p <;> cases q <;> rfl

theorem putIntersection_puts : Puts putIntersection (· && ·) := by
  constructor <;> intro p q out x <;> cases p <;> cases q <;> rfl

/-- What holds when the loop has ended: nothing is lost of the walk. -/
structure Merged (op : Bool → Bool → Bool) (first : Bool → Bool) (m r : Merge) : Prop where
  done : r.leftA = [] ∨ r.leftB = []
  countA : r.iA + r.leftA.length = m.iA + m.leftA.length
  countB : r.iB + r.leftB.length = m.iB + m.leftB.length
  count : r.count = setCount (odd r.iA) (odd r.iB)
  kept : r.out ++ walk op first (odd r.iA) (odd r.iB) r.leftA r.leftB =
    m.out ++ walk op first (odd m.iA) (odd m.iB) m.leftA m.leftB

theorem mergeLoop_spec {put : Nat → List Nat → Nat → Bool → Nat × List Nat}
    {aFirst : Nat → Bool} (hput : Puts put op) (hfirst : ∀ i, aFirst i = first (odd i)) (m : Merge)
    (hcount : m.count = setCount (odd m.iA) (odd m.iB)) :
    Merged op first m (mergeLoop aFirst put m) := by
  fun_induction mergeLoop aFirst put m with
  | case1 iA iB count out a as b bs hlt ih =>
    dsimp only at hcount
    subst hcount
    have hstep : put (setCount (odd iA) (odd iB)) out a (elementRangeMatches iA) = _ :=
      (congrArg _ (matches_eq iA)).trans (hput.left (odd iA) (odd iB) out a)
    obtain ⟨hdone, hA, hB, hcount, hwalk⟩ := ih (by dsimp only; rw [hstep, odd_succ])
    rw [hfirst] at hlt
    dsimp only at hA hwalk ⊢
    refine ⟨hdone, ?_, hB, hcount, ?_⟩
    · rw [hA, List.length_cons, Nat.add_right_comm, Nat.add_assoc]
    · rw [hwalk, hstep, odd_succ, walk, if_pos hlt]
      dsimp only
      by_cases hop : op (odd iA) (odd iB) = op (!odd iA) (odd iB)
      · rw [if_pos hop, if_pos hop]
      · rw [if_neg hop, if_neg hop, List.append_assoc, List.singleton_append]
  | case2 iA iB count out a as b bs hlt ih =>
    dsimp only at hcount
    subst hcount
    have hstep : put (setCount (odd iA) (odd iB)) out b (elementRangeMatches iB) = _ :=
      (congrArg _ (matches_eq iB)).trans (hput.right (odd iA) (odd iB) out b)
    obtain ⟨hdone, hA, hB, hcount, hwalk⟩ := ih (by dsimp only; rw [hstep, odd_succ])
    rw [hfirst] at hlt
    dsimp only at hB hwalk ⊢
    refine ⟨hdone, hA, ?_, hcount, ?_⟩
    · rw [hB, List.length_cons, Nat.add_right_comm, Nat.add_assoc]
    · rw [hwalk, hstep, odd_succ, walk, if_neg hlt]
      dsimp only
      by_cases hop : op (odd iA) (odd iB) = op (odd iA) (!odd iB)
      · rw [if_pos hop, if_pos hop]
      · rw [if_neg hop, if_neg hop, List.append_assoc, List.singleton_append]
  | case3 m hm =>
    refine ⟨?_, rfl, rfl, hcount, rfl⟩
    obtain ⟨iA, iB, count, out, as, bs⟩ := m
    cases as with
    | nil => exact .inl rfl
    | cons a as =>
      cases bs with
      | nil => exact .inr rfl
      | cons b bs => exact absurd rfl (hm iA iB count out a as b bs)

theorem Merged.walk_left {m r : Merge} (h : Merged op first m r) :
    walk op first (odd r.iA) (odd r.iB) r.leftA r.leftB =
      if r.leftA = [] then (if op (odd r.iA) true = op (odd r.iA) false then [] else r.left)
      else if op true (odd r.iB) = op false (odd r.iB) then [] else r.left := by
  rcases h.done with hA | hB
  · have hleft : r.left = r.leftB := by
      rw [Merge.left, hA]
      rfl
    rw [if_pos hA, hleft, hA, walk]
  · cases hA : r.leftA with
    | nil =>
      have hleft : r.left = r.leftB := by
        rw [Merge.left, hA]
        rfl
      rw [if_pos rfl, hleft, walk]
    | cons a as =>
      have hleft : r.left = a :: as := by
        rw [Merge.left, hA]
        rfl
      rw [if_neg (List.cons_ne_nil _ _), hleft, hB, walk]

theorem Merged.iA_eq {r : Merge} (h : Merged op first ⟨0, 0, 0, [], as, bs⟩ r) :
    r.iA = as.length ↔ r.leftA = [] := by
  have hcount := h.countA
  dsimp only at hcount
  rw [← List.length_eq_zero_iff]
  omega

theorem Merged.iB_eq {r : Merge} (h : Merged op first ⟨0, 0, 0, [], as, bs⟩ r) :
    r.iB = bs.length ↔ r.leftB = [] := by
  have hcount := h.countB
  dsimp only at hcount
  rw [← List.length_eq_zero_iff]
  omega

theorem Merge.left_of_nil {r : Merge} (hA : r.leftA = []) : r.left = r.leftB := by
  rw [Merge.left, hA]
  rfl

theorem unionArray_eq (as bs : List Nat) :
    unionArray as bs = walk (· || ·) (!·) false false as bs := by
  have hmerged : Merged (· || ·) (!·) ⟨0, 0, 0, [], as, bs⟩ _ :=
    mergeLoop_spec putUnion_puts (fun i => matches_eq i) ⟨0, 0, 0, [], as, bs⟩ rfl
  rw [unionArray]
  generalize mergeLoop (fun i => elementRangeMatches i) putUnion ⟨0, 0, 0, [], as, bs⟩ = r
    at hmerged ⊢
  have hkept := hmerged.kept
  rw [hmerged.walk_left, List.nil_append] at hkept
  refine Eq.trans ?_ hkept
  have hnil : r.leftA = [] → r.leftB = [] → r.left = [] := fun hA hB => by
    rw [Merge.left_of_nil hA, hB]
  simp only [ne_eq, hmerged.iA_eq, hmerged.iB_eq, prevRangeMatches_eq, hmerged.count]
  rcases hmerged.done with hA | hB
  · by_cases hB : r.leftB = []
    · rw [hnil hA hB]
      simp
    · cases odd r.iA <;> cases odd r.iB <;> simp [hA, hB, setCount, uvPred, uvMax]
  · by_cases hA : r.leftA = []
    · rw [hnil hA hB]
      simp
    · cases odd r.iA <;> cases odd r.iB <;> simp [hA, hB, setCount, uvPred, uvMax]

theorem intersectionArray_eq (as bs : List Nat) :
    intersectionArray as bs = walk (· && ·) id false false as bs := by
  have hmerged : Merged (· && ·) id ⟨0, 0, 0, [], as, bs⟩ _ :=
    mergeLoop_spec putIntersection_puts
      (fun i => (congrArg not (matches_eq i)).trans (Bool.not_not _)) ⟨0, 0, 0, [], as, bs⟩ rfl
  rw [intersectionArray]
  generalize mergeLoop (fun i => !elementRangeMatches i) putIntersection ⟨0, 0, 0, [], as, bs⟩ = r
    at hmerged ⊢
  have hkept := hmerged.kept
  rw [hmerged.walk_left, List.nil_append] at hkept
  refine Eq.trans ?_ hkept
  have hnil : r.leftA = [] → r.leftB = [] → r.left = [] := fun hA hB => by
    rw [Merge.left_of_nil hA, hB]
  simp only [hmerged.iA_eq, hmerged.iB_eq, prevRangeMatches_eq, hmerged.count]
  rcases hmerged.done with hA | hB
  · by_cases hB : r.leftB = []
    · rw [hnil hA hB]
      simp
    · cases odd r.iA <;> cases odd r.iB <;> simp [hA, hB, setCount, uvSucc]
  · by_cases hA : r.leftA = []
    · rw [hnil hA hB]
      simp
    · cases odd r.iA <;> cases odd r.iB <;> simp [hA, hB, setCount, uvSucc]

theorem union_fair : Fair (· || ·) (!·) := by
  constructor <;> intro p q <;> cases p <;> cases q <;> decide

theorem intersection_fair : Fair (· && ·) id := by
  constructor <;> intro p q <;> cases p <;> cases q <;> decide

section Canonical

variable {xs ys : List Nat} {v : Nat}

theorem walk_canonical (hfair : Fair op first) (hxs : Canonical xs) (hys : Canonical ys) :
    Canonical (walk op first p q xs ys) := by
  refine ⟨walk_pairwise hfair hxs.strict hys.strict, fun x hx => ?_⟩
  exact (mem_of_mem_walk hx).elim (hxs.bound x) (hys.bound x)

theorem unionArray_spec (hxs : Canonical xs) (hys : Canonical ys) :
    Canonical (unionArray xs ys) ∧
      ∀ v, state false (unionArray xs ys) v = (state false xs v || state false ys v) := by
  rw [unionArray_eq]
  exact ⟨walk_canonical union_fair hxs hys,
    fun v => state_walk (· || ·) false false hxs.strict hys.strict v⟩

theorem intersectionArray_spec (hxs : Canonical xs) (hys : Canonical ys) :
    Canonical (intersectionArray xs ys) ∧
      ∀ v, state false (intersectionArray xs ys) v = (state false xs v && state false ys v) := by
  rw [intersectionArray_eq]
  exact ⟨walk_canonical intersection_fair hxs hys,
    fun v => state_walk (· && ·) false false hxs.strict hys.strict v⟩

theorem state_zero (h : Canonical xs) : state false xs 0 = true ↔ xs.head? = some 0 := by
  cases xs with
  | nil => simp
  | cons x xs =>
    rw [List.head?_cons, Option.some.injEq]
    have hx := (List.pairwise_cons.1 h.strict).1
    rcases Nat.eq_zero_or_pos x with hzero | hpos
    · rw [hzero, state_of_le le_rfl, state_all_lt fun z hz => (Nat.zero_le x).trans_lt (hx z hz)]
      exact iff_of_true rfl rfl
    · rw [state_of_lt hpos]
      exact iff_of_false Bool.false_ne_true (by omega)

theorem has0_iff (xs : List Nat) : has0 xs = true ↔ xs.head? = some 0 := by
  rw [has0, decide_eq_true_eq]
  cases xs <;> simp

end Canonical

variable {l l' : Invlist} {o : Bool} {xs : List Nat} {i : Int} {j k n cp v low high : Nat}

def Located (xs : List Nat) (cp : Nat) (i : Int) : Prop :=
  ∃ as bs, xs = as ++ bs ∧ (as.length : Int) = i + 1 ∧ (∀ a ∈ as, a ≤ cp) ∧ ∀ b ∈ bs, cp < b

theorem getD_lt (h : xs.Pairwise (· < ·)) (hjk : j < k) (hk : k < xs.length) :
    xs.getD j 0 < xs.getD k 0 := by
  rw [List.getD_eq_getElem _ _ (hjk.trans hk), List.getD_eq_getElem _ _ hk]
  exact List.pairwise_iff_getElem.1 h j k (hjk.trans hk) hk hjk

theorem getD_le (h : xs.Pairwise (· < ·)) (hjk : j ≤ k) (hk : k < xs.length) :
    xs.getD j 0 ≤ xs.getD k 0 := by
  rcases Nat.eq_or_lt_of_le hjk with heq | hlt
  · rw [heq]
  · exact (getD_lt h hlt hk).le

theorem located_of (h : xs.Pairwise (· < ·)) (hn : n ≤ xs.length)
    (hlow : 0 < n → xs.getD (n - 1) 0 ≤ cp) (hhigh : n < xs.length → cp < xs.getD n 0) :
    Located xs cp (n - 1) := by
  refine ⟨xs.take n, xs.drop n, (List.take_append_drop n xs).symm, ?_, fun a ha => ?_, fun b hb => ?_⟩
  · rw [List.length_take]
    omega
  · obtain ⟨k, hk, hak⟩ := List.mem_iff_getElem.1 ha
    rw [List.length_take] at hk
    rw [List.getElem_take, ← List.getD_eq_getElem xs 0 (by omega)] at hak
    rw [← hak]
    exact (getD_le h (by omega) (by omega)).trans (hlow (by omega))
  · obtain ⟨k, hk, hbk⟩ := List.mem_iff_getElem.1 hb
    rw [List.length_drop] at hk
    rw [List.getElem_drop, ← List.getD_eq_getElem xs 0 (by omega)] at hbk
    rw [← hbk]
    exact (hhigh (by omega)).trans_le (getD_le h (by omega) (by omega))

/-- Below `low` the elements are not above the code point, from `high` on they are. -/
structure Between (xs : List Nat) (cp low high : Nat) : Prop where
  le : low ≤ high
  length : high ≤ xs.length
  low : 0 < low → xs.getD (low - 1) 0 ≤ cp
  high : high < xs.length → cp < xs.getD high 0

theorem searchLoop_spec (hl : Stores l o xs) (h : Between xs cp low high) :
    ∃ n : Nat, l.searchLoop cp low high = .ok n ∧ Between xs cp n n ∧ low ≤ n := by
  induction hm : high - low using Nat.strong_induction_on generalizing low high with
  | h m ih =>
    rw [Invlist.searchLoop]
    by_cases hlt : low < high
    · have hmid : ((low : Int) + high) / 2 = ((low + high) / 2 : Nat) := by omega
      have hle := h.length
      have hread := hl.read (i := ((low + high) / 2 : Nat)) (by omega) (by omega)
      rw [Int.toNat_natCast] at hread
      rw [if_pos (by omega), hmid, hread]
      dsimp only
      split_ifs with hx
      · have hbetween : Between xs cp ((low + high) / 2 + 1) high :=
          ⟨by omega, hle, fun _ => hx, h.high⟩
        obtain ⟨n, hloop, hn, hge⟩ := ih _ (by omega) hbetween rfl
        refine ⟨n, ?_, hn, by omega⟩
        rw [← hloop, Int.natCast_add]
        rfl
      · have hbetween : Between xs cp low ((low + high) / 2) :=
          ⟨by omega, by omega, h.low, fun _ => Nat.not_le.1 hx⟩
        exact ih _ (by omega) hbetween rfl
    · have heq : low = high := le_antisymm h.le (Nat.not_lt.1 hlt)
      subst heq
      exact ⟨low, if_neg (by omega), h, le_rfl⟩

theorem Between.located (h : Between xs cp n n) (hxs : xs.Pairwise (· < ·)) :
    Located xs cp (n - 1) := located_of hxs h.length h.low h.high

/-- What a search leaves: the same array, and an index of it in the cache. -/
structure Searched (l : Invlist) (o : Bool) (xs : List Nat) (cp : Nat) (r : Int × Invlist) :
    Prop where
  stores : Stores r.2 o xs
  located : Located xs cp r.1
  same : r.2 = { l with prevIndex := r.2.prevIndex }

theorem foundEntry_searched (hl : Stores l o xs) (hxs : xs.Pairwise (· < ·))
    (h : Between xs cp n n) (hn : 0 < n) : Searched l o xs cp (l.foundEntry n) := by
  refine ⟨⟨⟨hl.isOffset, hl.slots, ?_⟩, hl.cur⟩, h.located hxs, rfl⟩
  change 0 ≤ (n - 1 : Int)
  omega

theorem Stores.searched (hl : Stores l o xs) (h : Located xs cp i) : Searched l o xs cp (i, l) :=
  ⟨hl, h, rfl⟩

theorem Stores.read_nat (hl : Stores l o xs) (h : n < xs.length) :
    l.read (n : Int) = .ok (xs.getD n 0) := by
  rw [hl.read (by omega) (by omega), Int.toNat_natCast]

theorem Stores.cached (hl : Stores l o xs) (hpos : 0 < xs.length) :
    ∃ m : Nat, m < xs.length ∧
      (if (xs.length : Int) - 1 < l.prevIndex then (xs.length : Int) - 1 else l.prevIndex) = m := by
  have hindex := hl.index
  refine ⟨(if (xs.length : Int) - 1 < l.prevIndex then (xs.length : Int) - 1
    else l.prevIndex).toNat, ?_, ?_⟩ <;> split_ifs <;> omega

theorem Stores.search (hl : Stores l o xs) (hxs : xs.Pairwise (· < ·)) (cp : Nat) :
    ∃ r, l.search cp = .ok r ∧ Searched l o xs cp r := by
  rw [Invlist.search, hl.len]
  by_cases hnil : xs = []
  · subst hnil
    exact ⟨_, rfl, hl.searched (located_of hxs (Nat.zero_le 0) (by simp) (by simp))⟩
  have hpos : 0 < xs.length := List.length_pos_iff.2 hnil
  obtain ⟨m, hm, hmid⟩ := hl.cached hpos
  obtain ⟨last, hlast⟩ : ∃ last, xs.length = last + 1 := ⟨xs.length - 1, by omega⟩
  have hhighest : (xs.length : Int) - 1 = (last : Nat) := by omega
  have hfinal := hl.read_nat (n := last) (by omega)
  rw [if_neg (by omega), hmid, hhighest, bind_ok (hl.read_nat hm)]
  split_ifs with hle
  · rw [bind_ok hfinal]
    split_ifs with hend
    · refine ⟨_, rfl, hl.searched ?_⟩
      have hall : Located xs cp ((last + 1 : Nat) - 1 : Int) :=
        located_of hxs hlast.ge (fun _ => hend) (by omega)
      rw [Int.natCast_add, Int.natCast_one, Int.add_sub_cancel] at hall
      exact hall
    · have hlt : m < last := by
        by_contra hge
        have heq : m = last := by omega
        rw [heq] at hle
        exact hend hle
      have hnext := hl.read_nat (n := m + 1) (by omega)
      rw [Int.natCast_add, Int.natCast_one] at hnext
      rw [bind_ok hnext]
      split_ifs with hcut
      · refine ⟨_, rfl, hl.searched ?_⟩
        have hhere : Located xs cp ((m + 1 : Nat) - 1 : Int) :=
          located_of hxs (by omega) (fun _ => hle) (fun _ => hcut)
        rw [Int.natCast_add, Int.natCast_one, Int.add_sub_cancel] at hhere
        exact hhere
      · have hbetween : Between xs cp (m + 1) last :=
          ⟨by omega, by omega, fun _ => hle, fun _ => Nat.not_le.1 hend⟩
        obtain ⟨n, hloop, hn, hge⟩ := searchLoop_spec hl hbetween
        rw [Int.natCast_add, Int.natCast_one] at hloop
        rw [bind_ok hloop]
        exact ⟨_, rfl, foundEntry_searched hl hxs hn (by omega)⟩
  · have hlowest := hl.read_nat hpos
    rw [Int.natCast_zero] at hlowest
    rw [bind_ok hlowest]
    split_ifs with hfirst
    · exact ⟨_, rfl, hl.searched (located_of hxs (Nat.zero_le _) (by simp) fun _ => hfirst)⟩
    · have hmpos : 0 < m := by
        by_contra hzero
        have heq : m = 0 := by omega
        rw [heq] at hle
        exact hfirst (Nat.not_le.1 hle)
      have hbelow := hl.read_nat (n := m - 1) (by omega)
      rw [Int.natCast_sub hmpos, Int.natCast_one] at hbelow
      rw [bind_ok hbelow]
      split_ifs with hcut
      · have hbetween : Between xs cp m m :=
          ⟨le_rfl, hm.le, fun _ => hcut, fun _ => Nat.not_le.1 hle⟩
        exact ⟨_, rfl, foundEntry_searched hl hxs hbetween hmpos⟩
      · have hbetween : Between xs cp 0 m :=
          ⟨Nat.zero_le m, hm.le, by simp, fun _ => Nat.not_le.1 hle⟩
        obtain ⟨n, hloop, hn, -⟩ := searchLoop_spec hl hbetween
        rw [Int.natCast_zero] at hloop
        rw [bind_ok hloop]
        refine ⟨_, rfl, foundEntry_searched hl hxs hn ?_⟩
        by_contra hzero
        have hn0 := hn.high (by omega)
        have heq : n = 0 := by omega
        rw [heq] at hn0
        exact hfirst hn0

variable {ms : List Nat} {m start stop : Nat}

/-- The array cut at both ends of a range. -/
structure Cut (xs : List Nat) (start stop : Nat) (as ms bs : List Nat) : Prop where
  eq : xs = as ++ (ms ++ bs)
  below : ∀ a ∈ as, a ≤ start
  above : ∀ x ∈ ms, start < x
  inside : ∀ x ∈ ms, x ≤ stop
  behind : ∀ b ∈ bs, stop < b

/-- The switches up to the range: it begins unless the set holds its start, and goes on from a range
that it adjoins. -/
def before (as : List Nat) (start : Nat) : List Nat :=
  if as.length % 2 = 1 then as
  else if as.getLast? = some start then as.dropLast
  else as ++ [start]

def after (m : Nat) (bs : List Nat) (stop : Nat) : List Nat :=
  if m % 2 = 1 then bs
  else if bs.head? = some (uvSucc stop) then bs.tail
  else closing stop ++ bs

theorem uvSucc_eq (h : stop < uvMax) : uvSucc stop = stop + 1 := by
  rw [uvMax] at h
  rw [uvSucc]
  omega

theorem uvPred_eq (h : 0 < n) (h' : n ≤ uvMax) : uvPred n = n - 1 := by
  rw [uvMax] at h'
  rw [uvPred, uvMax]
  omega

theorem closing_of_lt (h : stop < uvMax) : closing stop = [stop + 1] := by
  rw [closing, if_neg h.ne, uvSucc_eq h]

theorem closing_uvMax : closing uvMax = [] := if_pos rfl

theorem before_cases (as : List Nat) (start : Nat) :
    (as.length % 2 = 1 ∧ before as start = as) ∨
      (as.length % 2 = 0 ∧ ∃ as', as = as' ++ [start] ∧ before as start = as') ∨
      (as.length % 2 = 0 ∧ before as start = as ++ [start] ∧ as.getLast? ≠ some start) := by
  rw [before]
  split_ifs with hodd hlast
  · exact .inl ⟨hodd, rfl⟩
  · obtain ⟨as', has⟩ := List.getLast?_eq_some_iff.1 hlast
    exact .inr (.inl ⟨by omega, as', has, by rw [has, List.dropLast_concat]⟩)
  · exact .inr (.inr ⟨by omega, rfl, hlast⟩)

theorem before_odd (as : List Nat) (start : Nat) : (before as start).length % 2 = 1 := by
  rcases before_cases as start with h | h | h
  · rw [h.2]
    exact h.1
  · obtain ⟨heven, as', has, hbefore⟩ := h
    rw [has, length_snoc] at heven
    rw [hbefore]
    omega
  · rw [h.2.1, length_snoc]
    omega

theorem before_le (h : ∀ a ∈ as, a ≤ start) : ∀ x ∈ before as start, x ≤ start := by
  intro x hx
  rcases before_cases as start with hc | hc | hc
  · rw [hc.2] at hx
    exact h x hx
  · obtain ⟨-, as', has, hbefore⟩ := hc
    rw [hbefore] at hx
    exact h x (has ▸ List.mem_append_left _ hx)
  · rw [hc.2.1] at hx
    rcases List.mem_append.1 hx with hx | hx
    · exact h x hx
    · exact (List.mem_singleton.1 hx).le

theorem before_pairwise (h : ∀ a ∈ as, a ≤ start) (has : as.Pairwise (· < ·)) :
    (before as start).Pairwise (· < ·) := by
  rcases before_cases as start with hc | hc | hc
  · rw [hc.2]
    exact has
  · obtain ⟨-, as', heq, hbefore⟩ := hc
    rw [heq] at has
    rw [hbefore]
    exact (List.pairwise_append.1 has).1
  · rw [hc.2.1]
    refine List.pairwise_append.2 ⟨has, List.pairwise_singleton _ _, fun a ha b hb => ?_⟩
    rw [List.mem_singleton.1 hb]
    refine lt_of_le_of_ne (h a ha) fun heq => hc.2.2 ?_
    obtain ⟨as', z, hz⟩ := List.eq_nil_or_concat as |>.resolve_left (List.ne_nil_of_mem ha)
    rw [List.concat_eq_append] at hz
    subst hz
    have hlast : start ≤ z := by
      rcases List.mem_append.1 ha with ha | ha
      · exact heq ▸ ((List.pairwise_append.1 has).2.2 a ha z (List.mem_singleton_self z)).le
      · exact heq ▸ (List.mem_singleton.1 ha).le
    have hz := h z (List.mem_append_right _ (List.mem_singleton_self z))
    rw [List.getLast?_concat, le_antisymm hz hlast]

theorem state_before (hv : v < start) : state false (before as start) v = state false as v := by
  rcases before_cases as start with hc | hc | hc
  · rw [hc.2]
  · obtain ⟨-, as', heq, hbefore⟩ := hc
    rw [hbefore, heq, state_append_lt fun y hy => by rw [List.mem_singleton.1 hy]; exact hv]
  · rw [hc.2.1, state_append_lt fun y hy => by rw [List.mem_singleton.1 hy]; exact hv]

theorem head?_before (h : as ≠ []) : (before as start).head? = as.head? := by
  rcases before_cases as start with hc | hc | hc
  · rw [hc.2]
  · obtain ⟨heven, as', heq, hbefore⟩ := hc
    rw [hbefore, heq, List.head?_append_of_ne_nil]
    intro hnil
    rw [heq, hnil] at heven
    exact absurd heven (by simp)
  · rw [hc.2.1, List.head?_append_of_ne_nil _ h]

theorem after_cases (m : Nat) (bs : List Nat) (stop : Nat) :
    (m % 2 = 1 ∧ after m bs stop = bs) ∨
      (m % 2 = 0 ∧ ∃ bs', bs = uvSucc stop :: bs' ∧ after m bs stop = bs') ∨
      (m % 2 = 0 ∧ after m bs stop = closing stop ++ bs ∧ bs.head? ≠ some (uvSucc stop)) := by
  rw [after]
  split_ifs with hodd hfirst
  · exact .inl ⟨hodd, rfl⟩
  · obtain ⟨bs', hbs⟩ := List.head?_eq_some_iff.1 hfirst
    exact .inr (.inl ⟨by omega, bs', hbs, by rw [hbs, List.tail_cons]⟩)
  · exact .inr (.inr ⟨by omega, rfl, hfirst⟩)

theorem after_lt (hstop : stop < uvMax) (h : ∀ b ∈ bs, stop < b) :
    ∀ x ∈ after m bs stop, stop < x := by
  intro x hx
  rcases after_cases m bs stop with hc | hc | hc
  · rw [hc.2] at hx
    exact h x hx
  · obtain ⟨-, bs', hbs, hafter⟩ := hc
    rw [hafter] at hx
    exact h x (hbs ▸ List.mem_cons_of_mem _ hx)
  · rw [hc.2.1, closing_of_lt hstop, List.singleton_append] at hx
    rcases List.mem_cons.1 hx with hx | hx
    · omega
    · exact h x hx

theorem after_pairwise (hstop : stop < uvMax) (h : ∀ b ∈ bs, stop < b)
    (hbs : bs.Pairwise (· < ·)) : (after m bs stop).Pairwise (· < ·) := by
  rcases after_cases m bs stop with hc | hc | hc
  · rw [hc.2]
    exact hbs
  · obtain ⟨-, bs', heq, hafter⟩ := hc
    rw [heq] at hbs
    rw [hafter]
    exact (List.pairwise_cons.1 hbs).2
  · rw [hc.2.1, closing_of_lt hstop, List.singleton_append]
    refine List.pairwise_cons.2 ⟨fun b hb => ?_, hbs⟩
    have hle := h b hb
    refine lt_of_le_of_ne hle fun heq => hc.2.2 ?_
    cases bs with
    | nil => cases hb
    | cons b' bs =>
      have hfirst := h b' List.mem_cons_self
      rw [List.head?_cons, uvSucc_eq hstop]
      rcases List.mem_cons.1 hb with hb | hb
      · rw [← hb, heq]
      · have hlt := (List.pairwise_cons.1 hbs).1 b hb
        omega

theorem state_after (hstop : stop < uvMax) (hv : stop < v) :
    state true (after m bs stop) v = state (flips false m) bs v := by
  have hsucc : uvSucc stop ≤ v := by
    rw [uvSucc_eq hstop]
    exact hv
  rcases after_cases m bs stop with hc | hc | hc
  · rw [hc.2, flips, if_neg (by omega)]
    rfl
  · obtain ⟨heven, bs', heq, hafter⟩ := hc
    rw [hafter, heq, flips, if_pos heven, state_of_le hsucc]
    rfl
  · rw [hc.2.1, flips, if_pos hc.1, closing_of_lt hstop, List.singleton_append, state_of_le hv]
    rfl

theorem after_bound (hstop : stop < uvMax) (h : ∀ b ∈ bs, b ≤ uvMax) :
    ∀ x ∈ after m bs stop, x ≤ uvMax := by
  intro x hx
  rcases after_cases m bs stop with hc | hc | hc
  · exact h x (hc.2 ▸ hx)
  · obtain ⟨-, bs', hbs, hafter⟩ := hc
    exact h x (hbs ▸ List.mem_cons_of_mem _ (hafter ▸ hx))
  · rw [hc.2.1, closing_of_lt hstop, List.singleton_append] at hx
    rcases List.mem_cons.1 hx with hx | hx
    · rw [hx]
      exact hstop
    · exact h x hx

theorem after_uvMax (m : Nat) : after m [] uvMax = [] := by
  rw [after, closing_uvMax]
  split_ifs <;> rfl

theorem Cut.nil_of_uvMax (hxs : Canonical xs) (h : Cut xs start uvMax as ms bs) : bs = [] := by
  refine List.eq_nil_iff_forall_not_mem.2 fun b hb => ?_
  have hbound := hxs.bound b (h.eq ▸ List.mem_append_right _ (List.mem_append_right _ hb))
  exact absurd (h.behind b hb) (Nat.not_lt.2 hbound)

theorem Cut.strict (hxs : Canonical xs) (h : Cut xs start stop as ms bs) :
    as.Pairwise (· < ·) ∧ bs.Pairwise (· < ·) := by
  have hall := hxs.strict
  rw [h.eq] at hall
  obtain ⟨has, hrest, -⟩ := List.pairwise_append.1 hall
  exact ⟨has, (List.pairwise_append.1 hrest).2.1⟩

theorem Cut.after_lt (hxs : Canonical xs) (h : Cut xs start stop as ms bs) (hstop : stop ≤ uvMax)
    (m : Nat) : ∀ x ∈ after m bs stop, stop < x := by
  rcases Nat.eq_or_lt_of_le hstop with heq | hlt
  · subst heq
    rw [h.nil_of_uvMax hxs, after_uvMax]
    exact fun x hx => absurd hx List.not_mem_nil
  · exact InversionList.after_lt hlt h.behind

theorem flips_odd {p : Bool} (h : n % 2 = 1) : flips p n = !p := if_neg (by omega)

theorem Cut.state (hxs : Canonical xs) (h : Cut xs start stop as ms bs) (hle : start ≤ stop)
    (hstop : stop ≤ uvMax) (hv : v ≤ uvMax) :
    state false (before as start ++ after (as.length + ms.length) bs stop) v =
      (state false xs v || decide (start ≤ v ∧ v ≤ stop)) := by
  have hafter := h.after_lt hxs hstop (as.length + ms.length)
  have hbefore := before_le h.below
  rcases Nat.lt_or_ge v start with hlow | hlow
  · have hbehind : ∀ x ∈ ms ++ bs, v < x := fun x hx => by
      rcases List.mem_append.1 hx with hx | hx
      · exact hlow.trans (h.above x hx)
      · exact (hlow.trans_le hle).trans (h.behind x hx)
    rw [state_append_lt fun x hx => (hlow.trans_le hle).trans (hafter x hx), state_before hlow,
      h.eq, state_append_lt hbehind, decide_eq_false fun hand => absurd hand.1 (Nat.not_le.2 hlow),
      Bool.or_false]
  rcases Nat.lt_or_ge stop v with hhigh | hhigh
  · have hlt : stop < uvMax := hhigh.trans_le hv
    have hupto : ∀ x ∈ as ++ ms, x ≤ v := fun x hx => by
      rcases List.mem_append.1 hx with hx | hx
      · exact (h.below x hx).trans hlow
      · exact (h.inside x hx).trans hhigh.le
    rw [state_append_le fun x hx => (hbefore x hx).trans hlow, flips_odd (before_odd as start),
      Bool.not_false, state_after hlt hhigh, h.eq, ← List.append_assoc, state_append_le hupto,
      List.length_append, decide_eq_false fun hand => absurd hand.2 (Nat.not_le.2 hhigh),
      Bool.or_false]
  · rw [state_append_lt fun x hx => hhigh.trans_lt (hafter x hx),
      state_all_le fun x hx => (hbefore x hx).trans hlow, flips_odd (before_odd as start),
      decide_eq_true ⟨hlow, hhigh⟩, Bool.or_true]
    rfl

theorem Cut.canonical (hxs : Canonical xs) (h : Cut xs start stop as ms bs) (hle : start ≤ stop)
    (hstop : stop ≤ uvMax) :
    Canonical (before as start ++ after (as.length + ms.length) bs stop) := by
  obtain ⟨has, hbs⟩ := h.strict hxs
  have hafter := h.after_lt hxs hstop (as.length + ms.length)
  have hbefore := before_le h.below
  refine ⟨List.pairwise_append.2 ⟨before_pairwise h.below has, ?_, fun a ha b hb => ?_⟩,
    fun x hx => ?_⟩
  · rcases Nat.eq_or_lt_of_le hstop with heq | hlt
    · subst heq
      rw [h.nil_of_uvMax hxs, after_uvMax]
      exact .nil
    · exact after_pairwise hlt h.behind hbs
  · exact ((hbefore a ha).trans hle).trans_lt (hafter b hb)
  · rcases List.mem_append.1 hx with hx | hx
    · exact ((hbefore x hx).trans hle).trans hstop
    · rcases Nat.eq_or_lt_of_le hstop with heq | hlt
      · subst heq
        rw [h.nil_of_uvMax hxs, after_uvMax] at hx
        cases hx
      · refine after_bound hlt (fun b hb => hxs.bound b ?_) x hx
        exact h.eq ▸ List.mem_append_right _ (List.mem_append_right _ hb)

end XPerl.InversionList
