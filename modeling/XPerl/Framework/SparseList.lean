import Mathlib.Data.List.Nodup
import Mathlib.Data.List.ReduceOption

/-! Sequences with holes: lists of options, read through `reduceOption`. -/

namespace XPerl.Framework.SparseList

variable {α β : Type}

theorem reduceOption_filter (p : α → Bool) (l : List (Option α)) :
    (l.map (Option.filter p)).reduceOption = l.reduceOption.filter p := by
  induction l with
  | nil => rfl
  | cons x l ih =>
    cases x with
    | none => simpa [List.reduceOption_cons_of_none] using ih
    | some a =>
      by_cases h : p a = true
      · simp [Option.filter, h, List.reduceOption_cons_of_some, ih]
      · simp [Option.filter, h, List.reduceOption_cons_of_some, List.reduceOption_cons_of_none, ih]

theorem drop_reduceOption (l : List (Option α)) (k : Nat) :
    l.reduceOption.drop (l.take k).reduceOption.length = (l.drop k).reduceOption := by
  conv_lhs => rw [← List.take_append_drop k l, List.reduceOption_append]
  simp [List.take_append_drop]

theorem reduceOption_head {l : List (Option α)} {i : Nat} {a : α}
    (hlow : ∀ j < i, l[j]? = some none) (hi : l[i]? = some (some a)) :
    l.reduceOption = a :: (l.drop (i + 1)).reduceOption := by
  induction l generalizing i with
  | nil => simp at hi
  | cons x l ih =>
    cases i with
    | zero =>
      obtain rfl : x = some a := by simpa using hi
      exact List.reduceOption_cons_of_some a l
    | succ i =>
      obtain rfl : x = none := by simpa using hlow 0 (Nat.succ_pos i)
      rw [List.reduceOption_cons_of_none, List.drop_succ_cons]
      exact ih (fun j hj => by simpa using hlow (j + 1) (by omega)) (by simpa using hi)

theorem index_unique {f : α → β} {l : List (Option α)} (h : (l.reduceOption.map f).Nodup)
    {i j : Nat} {x y : α} (hi : l[i]? = some (some x)) (hj : l[j]? = some (some y))
    (hxy : f x = f y) : i = j := by
  have hgen : ∀ (l : List (Option α)) (i j : Nat) (x y : α), (l.reduceOption.map f).Nodup →
      i < j → l[i]? = some (some x) → l[j]? = some (some y) → f x ≠ f y := by
    intro l i j x y hnd hij hx hy he
    have hsplit := List.take_append_drop j l
    rw [← hsplit, List.reduceOption_append, List.map_append] at hnd
    refine (List.nodup_append.mp hnd).2.2 (f x) ?_ (f y) ?_ he
    · refine List.mem_map_of_mem (List.reduceOption_mem_iff.mpr ?_)
      exact List.mem_of_getElem? (i := i) (by rw [List.getElem?_take_of_lt hij]; exact hx)
    · refine List.mem_map_of_mem (List.reduceOption_mem_iff.mpr ?_)
      exact List.mem_of_getElem? (i := 0) (by simpa using hy)
  rcases Nat.lt_trichotomy i j with h' | h' | h'
  · exact absurd hxy (hgen l i j x y h h' hi hj)
  · exact h'
  · exact absurd hxy.symm (hgen l j i y x h h' hj hi)

theorem set_eq_map {l : List (Option α)} {i : Nat} {a : α} {g : α → α}
    (hi : l[i]? = some (some a)) (hg : ∀ j x, j ≠ i → l[j]? = some (some x) → g x = x) :
    l.set i (some (g a)) = l.map (Option.map g) := by
  apply List.ext_getElem?
  intro j
  obtain ⟨hlt, hval⟩ := List.getElem?_eq_some_iff.mp hi
  rw [List.getElem?_set, List.getElem?_map]
  by_cases h : i = j
  · subst h
    simp [hlt, hval]
  · rw [if_neg h]
    cases hj : l[j]? with
    | none => rfl
    | some o =>
      cases o with
      | none => rfl
      | some x => simp [hg j x (Ne.symm h) hj]

theorem set_none_eq_filter {l : List (Option α)} {i : Nat} {a : α} {p : α → Bool}
    (hi : l[i]? = some (some a)) (ha : p a = false)
    (hp : ∀ j x, j ≠ i → l[j]? = some (some x) → p x = true) :
    l.set i none = l.map (Option.filter p) := by
  apply List.ext_getElem?
  intro j
  obtain ⟨hlt, hval⟩ := List.getElem?_eq_some_iff.mp hi
  rw [List.getElem?_set, List.getElem?_map]
  by_cases h : i = j
  · subst h
    simp [hlt, hval, Option.filter, ha]
  · rw [if_neg h]
    cases hj : l[j]? with
    | none => rfl
    | some o =>
      cases o with
      | none => rfl
      | some x => simp [Option.filter, hp j x (Ne.symm h) hj]

theorem eraseIdx_drop (l : List (Option α)) (i k : Nat) :
    ((l.eraseIdx i).drop (if i < k then k - 1 else k)).reduceOption =
      ((l.set i none).drop k).reduceOption := by
  induction l generalizing i k with
  | nil => simp
  | cons x l ih =>
    cases i with
    | zero =>
      cases k with
      | zero => simp [List.reduceOption_cons_of_none]
      | succ k => simp
    | succ i =>
      cases k with
      | zero =>
        have := ih i 0
        simp only [Nat.not_lt_zero, if_false, List.drop_zero] at this
        cases x <;>
          simp [List.reduceOption_cons_of_none, List.reduceOption_cons_of_some, this]
      | succ k =>
        have := ih i k
        by_cases h : i < k
        · obtain ⟨k, rfl⟩ : ∃ m, k = m + 1 := ⟨k - 1, by omega⟩
          have h' : i + 1 < k + 1 + 1 := by omega
          rw [if_pos h] at this
          rw [if_pos h']
          exact this
        · have h' : ¬i + 1 < k + 1 := by omega
          rw [if_neg h] at this
          rw [if_neg h']
          exact this

theorem find_position (f : Nat → Option α) (n k : Nat) (p : α → Bool) :
    let l := (List.range n).map f
    match (List.range n).find? fun i => decide (k ≤ i) && (f i).any p with
    | none => ∀ x ∈ (l.drop k).reduceOption, p x = false
    | some i => ∃ x pre, f i = some x ∧ p x = true ∧
        (l.drop k).reduceOption = pre ++ x :: (l.drop (i + 1)).reduceOption ∧
        ∀ y ∈ pre, p y = false := by
  intro l
  have hget : ∀ i, l[i]? = if i < n then some (f i) else none := by
    intro i
    by_cases h : i < n
    · simp [l, h]
    · simp [l, h]
  have hmem : ∀ {m : List (Option α)} {x : α}, x ∈ m.reduceOption → ∃ j, m[j]? = some (some x) :=
    fun hx => List.mem_iff_getElem?.mp (List.reduceOption_mem_iff.mp hx)
  split
  · rename_i hnone
    intro x hx
    obtain ⟨j, hj⟩ := hmem hx
    rw [List.getElem?_drop, hget] at hj
    split at hj
    · rename_i hlt
      have := List.find?_range_eq_none.mp hnone (k + j) hlt
      simpa [Option.some.inj hj] using this
    · simp at hj
  · rename_i i hsome
    obtain ⟨hp, hi, hbefore⟩ := List.find?_range_eq_some.mp hsome
    obtain ⟨hk, hany⟩ := Bool.and_eq_true_iff.mp hp
    have hk : k ≤ i := by simpa using hk
    obtain ⟨x, hx, hpx⟩ : ∃ x, f i = some x ∧ p x = true := by
      cases h : f i with
      | none => simp [h] at hany
      | some x => exact ⟨x, rfl, by simpa [h] using hany⟩
    refine ⟨x, ((l.drop k).take (i - k)).reduceOption, hx, hpx, ?_, fun y hy => ?_⟩
    · have hli : l[i]? = some (some x) := by rw [hget, if_pos (List.mem_range.mp hi), hx]
      obtain ⟨hlt, hval⟩ := List.getElem?_eq_some_iff.mp hli
      have hdrop : l.drop i = some x :: l.drop (i + 1) := by
        rw [List.drop_eq_getElem_cons hlt, hval]
      conv_lhs => rw [← List.take_append_drop (i - k) (l.drop k), List.drop_drop,
        show k + (i - k) = i by omega, hdrop, List.reduceOption_append,
        List.reduceOption_cons_of_some]
    · obtain ⟨j, hj⟩ := hmem hy
      have hlt : j < i - k := by
        obtain ⟨hlt, -⟩ := List.getElem?_eq_some_iff.mp hj
        simp only [List.length_take] at hlt
        omega
      rw [List.getElem?_take_of_lt hlt, List.getElem?_drop, hget] at hj
      split at hj
      · have := hbefore (k + j) (by omega)
        simpa [Option.some.inj hj] using this
      · simp at hj

theorem foldl_zipIdx {f : β → α × Nat → β} (I : Nat → β → Prop) {l : List α} {b : β}
    (h0 : I 0 b) (hstep : ∀ i a b, l[i]? = some a → I i b → I (i + 1) (f b (a, i))) :
    I l.length (l.zipIdx.foldl f b) := by
  have hgen : ∀ (m : List α) (k : Nat) (b : β), (∀ i, l[k + i]? = m[i]?) → I k b →
      I (k + m.length) ((m.zipIdx k).foldl f b) := by
    intro m
    induction m with
    | nil => intro k b _ hb; simpa using hb
    | cons a m ih =>
      intro k b hm hb
      have ha : l[k]? = some a := by simpa using hm 0
      have := ih (k + 1) (f b (a, k)) (fun i => by
        have := hm (i + 1)
        rwa [List.getElem?_cons_succ, show k + (i + 1) = k + 1 + i by omega] at this) (hstep k a b ha hb)
      rw [List.length_cons, show k + (m.length + 1) = k + 1 + m.length by omega]
      simpa [List.zipIdx_cons] using this
  simpa using hgen l 0 b (fun i => by simp) h0

end XPerl.Framework.SparseList
