import Mathlib.Data.List.Pairwise
import Mathlib.Data.List.Perm.Basic
import Mathlib.Order.Defs.LinearOrder

/-! The earliest position with a property; insertion sort and bisection by comparison. -/

namespace XPerl.Framework

/-- The position is the first one with the property; `none` says that there is none. -/
def Earliest (P : Nat → Prop) : Option Nat → Prop
  | none => ∀ k, ¬ P k
  | some k => P k ∧ ∀ j, P j → k ≤ j

def sooner : Option Nat → Option Nat → Option Nat
  | none, found => found
  | some best, none => some best
  | some best, some k => if k < best then some k else some best

namespace Earliest

variable {P Q : Nat → Prop} {a b : Option Nat}

theorem congr (h : Earliest P a) (hPQ : ∀ k, P k ↔ Q k) : Earliest Q a := by
  have heq : P = Q := funext fun k => propext (hPQ k)
  rw [← heq]
  exact h

theorem unique (h : Earliest P a) (h' : Earliest P b) : a = b := by
  cases a with
  | none =>
    cases b with
    | none => rfl
    | some k => exact absurd h'.1 (h k)
  | some j =>
    cases b with
    | none => exact absurd h.1 (h' j)
    | some k => rw [Nat.le_antisymm (h.2 k h'.1) (h'.2 j h.1)]

theorem sooner (h : Earliest P a) (h' : Earliest Q b) :
    Earliest (fun k => P k ∨ Q k) (Framework.sooner a b) := by
  cases a with
  | none =>
    apply h'.congr
    intro k
    have hno := h k
    tauto
  | some i =>
    cases b with
    | none =>
      apply h.congr
      intro k
      have hno := h' k
      tauto
    | some j =>
      obtain ⟨hi, hleast⟩ := h
      obtain ⟨hj, hleast'⟩ := h'
      rw [Framework.sooner]
      by_cases hlt : j < i
      · rw [if_pos hlt]
        refine ⟨Or.inr hj, ?_⟩
        intro k hk
        rcases hk with hk | hk
        · have hle := hleast k hk
          omega
        · exact hleast' k hk
      · rw [if_neg hlt]
        refine ⟨Or.inl hi, ?_⟩
        intro k hk
        rcases hk with hk | hk
        · exact hleast k hk
        · have hle := hleast' k hk
          omega

theorem extend (h : Earliest P a) {n : Nat} (hlt : ∀ k, P k → k < n)
    (hQ : ∀ k, Q k ↔ P k ∨ k = n) : Earliest Q (a.or (some n)) := by
  cases a with
  | none =>
    refine ⟨(hQ n).2 (Or.inr rfl), ?_⟩
    intro k hk
    rcases (hQ k).1 hk with hk | hk
    · exact absurd hk (h k)
    · exact Nat.le_of_eq hk.symm
  | some i =>
    obtain ⟨hi, hleast⟩ := h
    refine ⟨(hQ i).2 (Or.inl hi), ?_⟩
    intro k hk
    rcases (hQ k).1 hk with hk | hk
    · exact hleast k hk
    · rw [hk]
      exact Nat.le_of_lt (hlt i hi)

end Earliest

section Sorting

variable {α : Type} (after : α → α → Bool)

def insertBack (x : α) : List α → List α
  | [] => [x]
  | y :: ys => if after y x then y :: insertBack x ys else x :: y :: ys

def insertionSort (xs : List α) : List α :=
  (xs.foldl (fun sorted x => insertBack after x sorted) []).reverse

variable {after}

theorem insertBack_perm (x : α) (ys : List α) : (insertBack after x ys).Perm (x :: ys) := by
  induction ys with
  | nil => exact List.Perm.refl _
  | cons y ys ih =>
    rw [insertBack]
    by_cases h : after y x = true
    · rw [if_pos h]
      exact (ih.cons y).trans (List.Perm.swap x y ys)
    · rw [if_neg h]

private theorem foldl_insertBack_perm (after : α → α → Bool) (xs sorted : List α) :
    (xs.foldl (fun sorted x => insertBack after x sorted) sorted).Perm (xs ++ sorted) := by
  induction xs generalizing sorted with
  | nil => exact List.Perm.refl _
  | cons x xs ih =>
    apply (ih (insertBack after x sorted)).trans
    apply ((insertBack_perm x sorted).append_left xs).trans
    exact List.perm_middle

theorem insertionSort_perm (xs : List α) : (insertionSort after xs).Perm xs := by
  apply (List.reverse_perm _).trans
  have h := foldl_insertBack_perm after xs []
  rwa [List.append_nil] at h

variable {R : α → α → Prop}

theorem insertBack_pairwise (htrans : ∀ a b c, R a b → R b c → R a c) {x : α} {ys : List α}
    (hys : ys.Pairwise (fun a b => R b a))
    (hstay : ∀ y ∈ ys, after y x = false → R y x) (hmove : ∀ y ∈ ys, after y x = true → R x y) :
    (insertBack after x ys).Pairwise (fun a b => R b a) := by
  induction ys with
  | nil => exact List.pairwise_singleton _ _
  | cons y ys ih =>
    obtain ⟨hy, hys⟩ := List.pairwise_cons.1 hys
    rw [insertBack]
    by_cases h : after y x = true
    · rw [if_pos h]
      apply List.pairwise_cons.2
      constructor
      · intro z hz
        rcases List.mem_cons.1 ((insertBack_perm x ys).mem_iff.1 hz) with rfl | hz
        · exact hmove y List.mem_cons_self h
        · exact hy z hz
      · exact ih hys (fun z hz => hstay z (List.mem_cons_of_mem y hz))
          (fun z hz => hmove z (List.mem_cons_of_mem y hz))
    · rw [if_neg h]
      have hyx := hstay y List.mem_cons_self (by simpa using h)
      apply List.pairwise_cons.2
      constructor
      · intro z hz
        rcases List.mem_cons.1 hz with rfl | hz
        · exact hyx
        · exact htrans z y x (hy z hz) hyx
      · exact List.pairwise_cons.2 ⟨hy, hys⟩

theorem insertionSort_pairwise (htrans : ∀ a b c, R a b → R b c → R a c) {xs : List α}
    (hstay : ∀ a ∈ xs, ∀ b ∈ xs, after a b = false → R a b)
    (hmove : ∀ a ∈ xs, ∀ b ∈ xs, after a b = true → R b a) :
    (insertionSort after xs).Pairwise R := by
  have hfold : ∀ (rest sorted : List α), (∀ a ∈ rest, a ∈ xs) → (∀ a ∈ sorted, a ∈ xs) →
      sorted.Pairwise (fun a b => R b a) →
      (rest.foldl (fun sorted x => insertBack after x sorted) sorted).Pairwise
        (fun a b => R b a) := by
    intro rest
    induction rest with
    | nil =>
      intro sorted _ _ h
      exact h
    | cons x rest ih =>
      intro sorted hrest hsorted h
      have hx := hrest x List.mem_cons_self
      apply ih
      · intro a ha
        exact hrest a (List.mem_cons_of_mem x ha)
      · intro a ha
        rcases List.mem_cons.1 ((insertBack_perm x sorted).mem_iff.1 ha) with rfl | ha
        · exact hx
        · exact hsorted a ha
      · apply insertBack_pairwise htrans h
        · intro y hy
          exact hstay y (hsorted y hy) x hx
        · intro y hy
          exact hmove y (hsorted y hy) x hx
  rw [insertionSort, List.pairwise_reverse]
  exact hfold xs [] (fun _ ha => ha) (fun _ ha => absurd ha List.not_mem_nil) List.Pairwise.nil

end Sorting

section Bisection

variable {α : Type} (c : α → Int)

/-- The first of the positions `lo` to `hi` that does not compare below, within the rounds given. -/
def bisect (xs : List α) : Nat → Nat → Nat → Nat
  | 0, lo, _ => lo
  | rounds + 1, lo, hi =>
    if lo < hi then
      let mid := lo + (hi - lo) / 2
      match xs[mid]? with
      | none => lo
      | some y => if c y < 0 then bisect xs rounds (mid + 1) hi else bisect xs rounds lo mid
    else lo

variable {c}

private theorem bisect_spec {xs : List α} (h : xs.Pairwise fun a b => c a ≤ c b)
    (rounds lo hi : Nat) (hrounds : hi - lo ≤ rounds) (hle : lo ≤ hi) (hlen : hi ≤ xs.length)
    (hlow : ∀ i y, xs[i]? = some y → i < lo → c y < 0)
    (hhigh : ∀ i y, xs[i]? = some y → hi ≤ i → ¬ c y < 0) :
    ∀ i y, xs[i]? = some y → (c y < 0 ↔ i < bisect c xs rounds lo hi) := by
  induction rounds generalizing lo hi with
  | zero =>
    intro i y hi'
    rw [bisect]
    constructor
    · intro hneg
      apply Nat.lt_of_not_le
      intro hge
      exact hhigh i y hi' (by omega) hneg
    · exact hlow i y hi'
  | succ rounds ih =>
    rw [bisect]
    by_cases hlt : lo < hi
    · rw [if_pos hlt]
      have hmid : lo + (hi - lo) / 2 < xs.length := by omega
      simp only [List.getElem?_eq_getElem hmid]
      have hmono : ∀ (i j : Nat) y z, xs[i]? = some y → xs[j]? = some z → i < j → c y ≤ c z := by
        intro i j y z hy hz hij
        obtain ⟨hi', rfl⟩ := List.getElem?_eq_some_iff.1 hy
        obtain ⟨hj', rfl⟩ := List.getElem?_eq_some_iff.1 hz
        exact List.pairwise_iff_getElem.1 h i j hi' hj' hij
      by_cases hneg : c xs[lo + (hi - lo) / 2] < 0
      · rw [if_pos hneg]
        apply ih _ _ (by omega) (by omega) hlen
        · intro i y hy hi'
          rcases Nat.lt_or_ge i (lo + (hi - lo) / 2) with hbefore | hat
          · have hcmp := hmono i _ y _ hy (List.getElem?_eq_getElem hmid) hbefore
            omega
          · obtain rfl : i = lo + (hi - lo) / 2 := by omega
            rw [List.getElem?_eq_getElem hmid] at hy
            rw [← Option.some.inj hy]
            exact hneg
        · exact hhigh
      · rw [if_neg hneg]
        apply ih _ _ (by omega) (by omega) (by omega) hlow
        intro i y hy hi'
        rcases Nat.lt_or_ge (lo + (hi - lo) / 2) i with hafter | hat
        · have hcmp := hmono _ i _ y (List.getElem?_eq_getElem hmid) hy hafter
          omega
        · obtain rfl : i = lo + (hi - lo) / 2 := by omega
          rw [List.getElem?_eq_getElem hmid] at hy
          rw [← Option.some.inj hy]
          exact hneg
    · rw [if_neg hlt]
      intro i y hy
      constructor
      · intro hneg
        apply Nat.lt_of_not_le
        intro hge
        exact hhigh i y hy (by omega) hneg
      · exact hlow i y hy

theorem lt_bisect_iff {xs : List α} (h : xs.Pairwise fun a b => c a ≤ c b) {i : Nat} {y : α}
    (hy : xs[i]? = some y) : i < bisect c xs xs.length 0 xs.length ↔ c y < 0 := by
  symm
  apply bisect_spec h xs.length 0 xs.length (by omega) (Nat.zero_le _) (Nat.le_refl _) _ _ i y hy
  · intro j z _ hlt
    exact absurd hlt (Nat.not_lt_zero j)
  · intro j z hz hge
    obtain ⟨hlt, -⟩ := List.getElem?_eq_some_iff.1 hz
    exact absurd hlt (Nat.not_lt.2 hge)

end Bisection

end XPerl.Framework
