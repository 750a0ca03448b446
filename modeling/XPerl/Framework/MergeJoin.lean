import Mathlib.Data.List.Nodup
import Mathlib.Order.Lattice

/-! Merge joins of keyed lists that need not be sorted. Each element keeps its path: its key and the
keys at least as great that stand ahead of it, with none greater in between. -/

namespace XPerl.Framework.MergeJoin

variable {α K : Type} [LinearOrder K]

section Definitions

variable (key : α → K) (join : α → α → α)

/-- Merge what starts with `x` and goes on with what `rest` merges. -/
def mergeFrom (x : α) (rest : List α → List α) : List α → List α
  | [] => x :: rest []
  | y :: ys =>
    if key x < key y then x :: rest (y :: ys)
    else if key y < key x then y :: mergeFrom x rest ys
    else join x y :: rest ys

def merge : List α → List α → List α
  | [], ys => ys
  | x :: xs, ys => mergeFrom key join x (merge xs) ys

def path (stack : List K) (k : K) : List K := k :: stack.filter fun j => decide (k ≤ j)

def paths (stack : List K) : List α → List (List K × α)
  | [] => []
  | x :: xs => (path stack (key x), x) :: paths (path stack (key x)) xs

def at? (stack : List K) (xs : List α) (p : List K) : Option α :=
  ((paths key stack xs).find? fun entry => decide (entry.1 = p)).map Prod.snd

end Definitions

variable {key : α → K} {join : α → α → α}

@[simp] theorem merge_nil (xs : List α) : merge key join xs [] = xs := by
  induction xs with
  | nil => rfl
  | cons x xs ih => rw [merge, mergeFrom, ih]

@[simp] theorem nil_merge (ys : List α) : merge key join [] ys = ys := rfl

theorem merge_cons (x y : α) (xs ys : List α) :
    merge key join (x :: xs) (y :: ys) =
      if key x < key y then x :: merge key join xs (y :: ys)
      else if key y < key x then y :: merge key join (x :: xs) ys
      else join x y :: merge key join xs ys := rfl

section Paths

variable {stack : List K}

theorem map_snd_paths (stack : List K) (xs : List α) : (paths key stack xs).map Prod.snd = xs := by
  induction xs generalizing stack with
  | nil => rfl
  | cons x xs ih => rw [paths, List.map_cons, ih]

variable {xs : List α} {p : List K} {x : α}

theorem head_of_mem_paths (h : (p, x) ∈ paths key stack xs) :
    p.head? = some (key x) := by
  induction xs generalizing stack with
  | nil => cases h
  | cons y xs ih =>
    rcases List.mem_cons.1 h with heq | h
    · obtain ⟨rfl, rfl⟩ := Prod.mk.inj heq
      rfl
    · exact ih h

theorem filter_path {k m : K} (h : k < m) :
    (path stack k).filter (fun j => decide (m ≤ j)) = stack.filter fun j => decide (m ≤ j) := by
  rw [path, List.filter_cons_of_neg (by simpa using h), List.filter_filter]
  apply List.filter_congr
  intro j _
  by_cases hm : m ≤ j
  · simp [hm, (h.le.trans hm)]
  · simp [hm]

theorem suffix_of_mem_paths (h : (p, x) ∈ paths key stack xs) :
    ∃ m, (m :: stack.filter fun j => decide (m ≤ j)) <:+ p.filter fun j => decide (m ≤ j) := by
  induction xs generalizing stack with
  | nil => cases h
  | cons y xs ih =>
    have hfirst : (path stack (key y)).filter (fun j => decide (key y ≤ j)) =
        key y :: stack.filter fun j => decide (key y ≤ j) := by
      rw [path, List.filter_cons_of_pos (by simp), List.filter_filter]
      simp
    rcases List.mem_cons.1 h with heq | h
    · refine ⟨key y, ?_⟩
      rw [(Prod.mk.inj heq).1]
      exact ⟨[], hfirst.symm⟩
    · obtain ⟨m, hm⟩ := ih h
      by_cases hlt : key y < m
      · rw [filter_path hlt] at hm
        exact ⟨m, hm⟩
      · -- a bound below the first key says more than the first key as a bound
        refine ⟨key y, ?_⟩
        have hcut := hm.filter fun j => decide (key y ≤ j)
        rw [List.filter_filter] at hcut
        have hsame : (p.filter fun j => decide (key y ≤ j) && decide (m ≤ j)) =
            p.filter fun j => decide (key y ≤ j) := by
          apply List.filter_congr
          intro j _
          by_cases hj : key y ≤ j
          · simp [hj, (le_of_not_gt hlt).trans hj]
          · simp [hj]
        rw [hsame] at hcut
        apply List.IsSuffix.trans _ hcut
        rw [List.filter_cons, List.filter_filter]
        have hstack : ((path stack (key y)).filter fun j => decide (key y ≤ j) && decide (m ≤ j)) =
            key y :: stack.filter fun j => decide (key y ≤ j) := by
          rw [← hfirst]
          apply List.filter_congr
          intro j _
          by_cases hj : key y ≤ j
          · simp [hj, (le_of_not_gt hlt).trans hj]
          · simp [hj]
        rw [hstack]
        split
        · exact List.suffix_cons _ _
        · exact List.suffix_refl _

theorem notMem_paths (xs : List α) (x : α) : (stack, x) ∉ paths key stack xs := by
  intro h
  obtain ⟨m, hm⟩ := suffix_of_mem_paths h
  have hlength := hm.length_le
  rw [List.length_cons] at hlength
  omega

theorem nodup_paths (stack : List K) (xs : List α) : ((paths key stack xs).map Prod.fst).Nodup := by
  induction xs generalizing stack with
  | nil => exact List.nodup_nil
  | cons x xs ih =>
    rw [paths, List.map_cons, List.nodup_cons]
    refine ⟨?_, ih _⟩
    intro hmem
    obtain ⟨entry, hentry, heq⟩ := List.mem_map.1 hmem
    obtain ⟨p, y⟩ := entry
    rw [show p = path stack (key x) from heq] at hentry
    exact notMem_paths xs y hentry

theorem at?_cons (stack : List K) (x : α) (xs : List α) (p : List K) :
    at? key stack (x :: xs) p =
      if path stack (key x) = p then some x else at? key (path stack (key x)) xs p := by
  rw [at?, paths, List.find?_cons]
  by_cases h : path stack (key x) = p
  · simp [h]
  · simp [h, at?]

theorem at?_eq_some :
    at? key stack xs p = some x ↔ (p, x) ∈ paths key stack xs := by
  rw [at?, Option.map_eq_some_iff]
  constructor
  · intro h
    obtain ⟨entry, hfind, rfl⟩ := h
    have hp := List.find?_some hfind
    rw [decide_eq_true_eq] at hp
    rw [← hp]
    exact List.mem_of_find?_eq_some hfind
  · intro h
    cases hfind : (paths key stack xs).find? fun entry => decide (entry.1 = p) with
    | none =>
      rw [List.find?_eq_none] at hfind
      exact absurd (decide_eq_true rfl) (hfind (p, x) h)
    | some entry =>
      have hp := List.find?_some hfind
      rw [decide_eq_true_eq] at hp
      have hentry := List.inj_on_of_nodup_map (nodup_paths stack xs)
        (List.mem_of_find?_eq_some hfind) h hp
      exact ⟨entry, rfl, congrArg Prod.snd hentry⟩

theorem at?_self (xs : List α) : at? key stack xs stack = none := by
  cases h : at? key stack xs stack with
  | none => rfl
  | some x => exact absurd (at?_eq_some.1 h) (notMem_paths xs x)

end Paths

section Merging

def SameBehind (key : α → K) (stack other : List K) (xs : List α) : Prop :=
  ∀ x ∈ xs.head?, path stack (key x) = path other (key x)

theorem at?_congr {stack other : List K} {xs : List α} (h : SameBehind key stack other xs)
    (p : List K) : at? key stack xs p = at? key other xs p := by
  cases xs with
  | nil => rfl
  | cons x xs => rw [at?_cons, at?_cons, h x rfl]

theorem path_path {stack : List K} {k m : K} (h : k < m) :
    path (path stack k) m = path stack m := by
  rw [path, filter_path h, path]

variable {stack left right : List K}

theorem at?_merge (hjoin : ∀ x y, key x = key y → key (join x y) = key x) {xs ys : List α}
    (hleft : SameBehind key stack left xs) (hright : SameBehind key stack right ys) :
    ∀ p, at? key stack (merge key join xs ys) p =
      Option.merge join (at? key left xs p) (at? key right ys p) := by
  induction xs generalizing ys stack left right with
  | nil =>
    intro p
    rw [nil_merge, at?_congr hright]
    exact Option.merge_none_left.symm
  | cons x xs ihx =>
    induction ys generalizing stack left right with
    | nil =>
      intro p
      rw [merge_nil, at?_congr hleft]
      exact Option.merge_none_right.symm
    | cons y ys ihy =>
      have hx := hleft x rfl
      have hy := hright y rfl
      intro p
      rw [merge_cons]
      by_cases hlt : key x < key y
      · have hbehind : SameBehind key (path left (key x)) right (y :: ys) := by
          intro z hz
          obtain rfl := Option.some.inj hz
          rw [← hx, path_path hlt, hy]
        have hrest := ihx (fun _ _ => rfl) hbehind
        rw [if_pos hlt, at?_cons, hx, at?_cons left]
        by_cases hp : path left (key x) = p
        · have hnone := hrest p
          rw [← hp, at?_self, eq_comm, Option.merge_eq_none_iff, hp] at hnone
          rw [if_pos hp, if_pos hp, hnone.2, Option.merge_none_right]
        · rw [if_neg hp, if_neg hp, hrest p]
      · by_cases hgt : key y < key x
        · have hbehind : SameBehind key (path right (key y)) left (x :: xs) := by
            intro z hz
            obtain rfl := Option.some.inj hz
            rw [← hy, path_path hgt, hx]
          have hrest := ihy hbehind (fun _ _ => rfl)
          rw [if_neg hlt, if_pos hgt, at?_cons, hy, at?_cons right]
          by_cases hp : path right (key y) = p
          · have hnone := hrest p
            rw [← hp, at?_self, eq_comm, Option.merge_eq_none_iff, hp] at hnone
            rw [if_pos hp, if_pos hp, hnone.1, Option.merge_none_left]
          · rw [if_neg hp, if_neg hp, hrest p]
        · have heq : key x = key y := le_antisymm (le_of_not_gt hgt) (le_of_not_gt hlt)
          have hstacks : path right (key y) = path left (key x) := by
            rw [← hy, ← heq, hx]
          have hrest : ∀ q, at? key (path left (key x)) (merge key join xs ys) q = Option.merge join
              (at? key (path left (key x)) xs q) (at? key (path left (key x)) ys q) :=
            ihx (fun _ _ => rfl) (fun _ _ => rfl)
          rw [if_neg hlt, if_neg hgt, at?_cons, hjoin x y heq, hx, at?_cons left, at?_cons right,
            hstacks]
          by_cases hp : path left (key x) = p
          · rw [if_pos hp, if_pos hp, if_pos hp, Option.merge_some_some]
          · rw [if_neg hp, if_neg hp, if_neg hp, hrest p]

def mergeAll (key : α → K) (join : α → α → α) (first : List α) (rest : List (List α)) : List α :=
  rest.foldl (merge key join) first

theorem at?_mergeAll (hjoin : ∀ x y, key x = key y → key (join x y) = key x) (first : List α)
    (rest : List (List α)) (p : List K) :
    at? key [] (mergeAll key join first rest) p =
      (rest.map (at? key [] · p)).foldl (Option.merge join) (at? key [] first p) := by
  induction rest generalizing first with
  | nil => rfl
  | cons ys rest ih =>
    rw [mergeAll, List.foldl_cons, ← mergeAll, ih, at?_merge hjoin (fun _ _ => rfl) (fun _ _ => rfl)]
    rfl

end Merging

theorem paths_of_increasing {stack : List K} {xs : List α}
    (h : xs.Pairwise fun x y => key x < key y) (hstack : ∀ k ∈ stack, ∀ x ∈ xs, k < key x) :
    paths key stack xs = xs.map fun x => ([key x], x) := by
  induction xs generalizing stack with
  | nil => rfl
  | cons x xs ih =>
    obtain ⟨hfirst, hrest⟩ := List.pairwise_cons.1 h
    have hpath : path stack (key x) = [key x] := by
      rw [path, List.cons_eq_cons]
      refine ⟨rfl, ?_⟩
      rw [List.filter_eq_nil_iff]
      intro k hk
      simpa using hstack k hk x List.mem_cons_self
    rw [paths, hpath, List.map_cons, ih hrest]
    intro k hk y hy
    rw [List.mem_singleton.1 hk]
    exact hfirst y hy

def Agree (key : α → K) (lists : List (List α)) : Prop :=
  ∀ xs ∈ lists, ∀ ys ∈ lists, ∀ p x q y, at? key [] xs p = some x → at? key [] ys q = some y →
    key x = key y → p = q

theorem agree_of_increasing {lists : List (List α)}
    (h : ∀ xs ∈ lists, xs.Pairwise fun x y => key x < key y) : Agree key lists := by
  have hsingle (xs : List α) (hxs : xs ∈ lists) (p : List K) (x : α)
      (hx : at? key [] xs p = some x) : p = [key x] := by
    rw [at?_eq_some, paths_of_increasing (h xs hxs) (by simp)] at hx
    obtain ⟨z, -, hz⟩ := List.mem_map.1 hx
    obtain ⟨hp, rfl⟩ := Prod.mk.inj hz
    exact hp.symm
  intro xs hxs ys hys p x q y hp hq heq
  rw [hsingle xs hxs p x hp, hsingle ys hys q y hq, heq]

theorem filter_key_eq (zs : List α) (k : K) :
    zs.filter (fun z => decide (key z = k)) =
      ((paths key [] zs).filter fun entry => decide (key entry.2 = k)).map Prod.snd := by
  have hpaths : (paths key [] zs).map Prod.snd = zs := map_snd_paths [] zs
  conv_lhs => rw [← hpaths]
  rw [List.filter_map]
  rfl

theorem filter_key_of_agree {zs : List α} {p : List K} {z : α} (hz : at? key [] zs p = some z)
    (hall : ∀ q y, at? key [] zs q = some y → key y = key z → q = p) :
    zs.filter (fun y => decide (key y = key z)) = [z] := by
  rw [filter_key_eq]
  have hmem : (p, z) ∈ (paths key [] zs).filter fun entry => decide (key entry.2 = key z) :=
    List.mem_filter.2 ⟨at?_eq_some.1 hz, decide_eq_true rfl⟩
  have hsame : ∀ entry ∈ (paths key [] zs).filter fun entry => decide (key entry.2 = key z),
      entry = (p, z) := by
    intro entry hentry
    obtain ⟨hin, hkey⟩ := List.mem_filter.1 hentry
    have hp := hall entry.1 entry.2 (at?_eq_some.2 hin) (of_decide_eq_true hkey)
    exact List.inj_on_of_nodup_map (nodup_paths [] zs) hin (at?_eq_some.1 hz) hp
  have hnodup : ((paths key [] zs).filter fun entry => decide (key entry.2 = key z)).Nodup :=
    (List.Nodup.of_map _ (nodup_paths [] zs)).filter _
  generalize (paths key [] zs).filter (fun entry => decide (key entry.2 = key z)) = entries
    at hmem hsame hnodup
  cases entries with
  | nil => cases hmem
  | cons e entries =>
    have he := hsame e List.mem_cons_self
    cases entries with
    | nil => rw [he, List.map_cons, List.map_nil]
    | cons e' entries =>
      have he' := hsame e' (List.mem_cons_of_mem _ List.mem_cons_self)
      rw [he, he'] at hnodup
      exact absurd List.mem_cons_self (List.nodup_cons.1 hnodup).1

theorem path_unique {zs : List α} {k : K} {z : α}
    (h : zs.filter (fun y => decide (key y = k)) = [z]) {p q : List K} {x y : α}
    (hp : at? key [] zs p = some x) (hq : at? key [] zs q = some y) (hx : key x = k)
    (hy : key y = k) : p = q := by
  rw [filter_key_eq] at h
  have hmem (r : List K) (w : α) (hr : at? key [] zs r = some w) (hw : key w = k) :
      (r, w) ∈ (paths key [] zs).filter fun entry => decide (key entry.2 = k) :=
    List.mem_filter.2 ⟨at?_eq_some.1 hr, decide_eq_true hw⟩
  obtain ⟨e, he, -⟩ := List.map_eq_singleton_iff.1 h
  have hpe := hmem p x hp hx
  have hqe := hmem q y hq hy
  rw [he, List.mem_singleton] at hpe hqe
  exact congrArg Prod.fst (hpe.trans hqe.symm)

end XPerl.Framework.MergeJoin
