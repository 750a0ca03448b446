import Mathlib.Order.Lattice
import Mathlib.Data.List.Pairwise
import Mathlib.Data.List.Nodup

/-! Strictly increasing sequences searched by bisection. -/

namespace XPerl.Framework.SortedList

variable {α : Type} [LinearOrder α]

/-- Bisection of `count` positions from `first` on, in at most as many rounds as the first
argument says. -/
def bisect (entries : List α) (x : α) : Nat → Nat → Nat → Nat
  | 0, first, _ => first
  | fuel + 1, first, count =>
    if count = 0 then first
    else
      let step := count / 2
      let pos := first + step
      match entries[pos]? with
      | none => first
      | some y =>
        if y < x then bisect entries x fuel (pos + 1) (count - (step + 1))
        else bisect entries x fuel first step

/-- The position of the first entry that is not less than `x`. -/
def lowerBound (entries : List α) (x : α) : Nat := bisect entries x entries.length 0 entries.length

def insert (entries : List α) (x : α) : List α :=
  entries.take (lowerBound entries x) ++ x :: entries.drop (lowerBound entries x)

/-- What bisection looks for: entries before `p` are less than `x`, those from `p` on are not. -/
def Splits (entries : List α) (x : α) (p : Nat) : Prop :=
  ∀ i y, entries[i]? = some y → (y < x ↔ i < p)

variable {entries : List α} {x : α}

private theorem lt_of_getElem? (h : entries.Pairwise (· < ·)) {i j : Nat}
    {y z : α} (hi : entries[i]? = some y) (hj : entries[j]? = some z) (hij : i < j) : y < z := by
  obtain ⟨hi', rfl⟩ := List.getElem?_eq_some_iff.1 hi
  obtain ⟨hj', rfl⟩ := List.getElem?_eq_some_iff.1 hj
  exact List.pairwise_iff_getElem.1 h i j hi' hj' hij

private theorem bisect_spec (h : entries.Pairwise (· < ·)) (x : α)
    (fuel first count : Nat) (hfuel : count ≤ fuel) (hcount : first + count ≤ entries.length)
    (hlow : ∀ i y, entries[i]? = some y → i < first → y < x)
    (hhigh : ∀ i y, entries[i]? = some y → first + count ≤ i → ¬ y < x) :
    Splits entries x (bisect entries x fuel first count) ∧
      bisect entries x fuel first count ≤ entries.length := by
  induction fuel generalizing first count with
  | zero =>
    have hzero : count = 0 := by omega
    refine ⟨?_, by rw [bisect]; omega⟩
    intro i y hi
    rw [bisect]
    constructor
    · intro hlt
      by_contra hge
      exact hhigh i y hi (by omega) hlt
    · intro hlt
      exact hlow i y hi hlt
  | succ fuel ih =>
    rw [bisect]
    by_cases hzero : count = 0
    · rw [if_pos hzero]
      refine ⟨?_, by omega⟩
      intro i y hi
      constructor
      · intro hlt
        by_contra hge
        exact hhigh i y hi (by omega) hlt
      · intro hlt
        exact hlow i y hi hlt
    · rw [if_neg hzero]
      have hpos : first + count / 2 < entries.length := by omega
      have hget : entries[first + count / 2]? = some entries[first + count / 2] :=
        List.getElem?_eq_getElem hpos
      simp only [hget]
      by_cases hlt : entries[first + count / 2] < x
      · rw [if_pos hlt]
        apply ih
        · omega
        · omega
        · intro i y hi hbefore
          rcases Nat.lt_or_ge i (first + count / 2) with hi' | hi'
          · exact lt_trans (lt_of_getElem? h hi hget hi') hlt
          · have heq : i = first + count / 2 := by omega
            rw [heq, hget] at hi
            rw [← Option.some.inj hi]
            exact hlt
        · intro i y hi hafter
          exact hhigh i y hi (by omega)
      · rw [if_neg hlt]
        apply ih
        · omega
        · omega
        · exact hlow
        · intro i y hi hafter hyx
          rcases Nat.lt_or_ge (first + count / 2) i with hi' | hi'
          · exact hlt (lt_trans (lt_of_getElem? h hget hi hi') hyx)
          · have heq : i = first + count / 2 := by omega
            rw [heq, hget] at hi
            rw [← Option.some.inj hi] at hyx
            exact hlt hyx

theorem lowerBound_spec (h : entries.Pairwise (· < ·)) (x : α) :
    Splits entries x (lowerBound entries x) ∧ lowerBound entries x ≤ entries.length := by
  apply bisect_spec h x entries.length 0 entries.length (Nat.le_refl _) (by omega)
  · intro i y hi hlt
    omega
  · intro i y hi hge
    have hlt := (List.getElem?_eq_some_iff.1 hi).1
    omega

theorem getElem?_lowerBound (h : entries.Pairwise (· < ·)) (x : α) :
    entries[lowerBound entries x]? = some x ↔ x ∈ entries := by
  obtain ⟨hsplit, hle⟩ := lowerBound_spec h x
  constructor
  · intro hget
    exact List.mem_of_getElem? hget
  · intro hmem
    obtain ⟨i, hi⟩ := List.getElem?_of_mem hmem
    have hge : ¬ i < lowerBound entries x := fun hlt => lt_irrefl x ((hsplit i x hi).2 hlt)
    rcases Nat.lt_or_ge (lowerBound entries x) i with hlt | hge'
    · have hlen := (List.getElem?_eq_some_iff.1 hi).1
      have hget : entries[lowerBound entries x]? = some entries[lowerBound entries x] :=
        List.getElem?_eq_getElem (by omega)
      have hless := lt_of_getElem? h hget hi hlt
      exact absurd ((hsplit _ _ hget).1 hless) (Nat.lt_irrefl _)
    · have heq : i = lowerBound entries x := by omega
      rw [← heq]
      exact hi

theorem mem_insert {y : α} :
    y ∈ insert entries x ↔ y = x ∨ y ∈ entries := by
  have hsplit := List.take_append_drop (lowerBound entries x) entries
  rw [insert, List.mem_append, List.mem_cons]
  conv_rhs => rw [← hsplit, List.mem_append]
  constructor
  · rintro (h | h | h)
    · exact Or.inr (Or.inl h)
    · exact Or.inl h
    · exact Or.inr (Or.inr h)
  · rintro (h | h | h)
    · exact Or.inr (Or.inl h)
    · exact Or.inl h
    · exact Or.inr (Or.inr h)

theorem length_insert (h : entries.Pairwise (· < ·)) (x : α) :
    (insert entries x).length = entries.length + 1 := by
  have hle := (lowerBound_spec h x).2
  simp only [insert, List.length_append, List.length_take, List.length_cons, List.length_drop]
  omega

theorem pairwise_insert (h : entries.Pairwise (· < ·))
    (hx : x ∉ entries) : (insert entries x).Pairwise (· < ·) := by
  obtain ⟨hsplit, -⟩ := lowerBound_spec h x
  have hbefore : ∀ y ∈ entries.take (lowerBound entries x), y < x := by
    intro y hy
    obtain ⟨i, hi⟩ := List.getElem?_of_mem hy
    rw [List.getElem?_take] at hi
    by_cases hlt : i < lowerBound entries x
    · rw [if_pos hlt] at hi
      exact (hsplit i y hi).2 hlt
    · rw [if_neg hlt] at hi
      cases hi
  have hafter : ∀ y ∈ entries.drop (lowerBound entries x), x < y := by
    intro y hy
    obtain ⟨i, hi⟩ := List.getElem?_of_mem hy
    rw [List.getElem?_drop] at hi
    have hge : ¬ y < x := fun hlt => by
      have := (hsplit _ y hi).1 hlt
      omega
    rcases lt_or_eq_of_le (not_lt.1 hge) with hlt | heq
    · exact hlt
    · exact absurd (heq ▸ List.mem_of_mem_drop hy) hx
  have hparts := h
  rw [← List.take_append_drop (lowerBound entries x) entries] at hparts
  obtain ⟨htake, hdrop, -⟩ := List.pairwise_append.1 hparts
  apply List.pairwise_append.2
  refine ⟨htake, List.pairwise_cons.2 ⟨hafter, hdrop⟩, ?_⟩
  intro y hy z hz
  rcases List.mem_cons.1 hz with rfl | hz
  · exact hbefore y hy
  · exact lt_trans (hbefore y hy) (hafter z hz)

theorem eraseIdx_lowerBound (h : entries.Pairwise (· < ·))
    (hx : x ∈ entries) : entries.eraseIdx (lowerBound entries x) = entries.erase x := by
  have hget := (getElem?_lowerBound h x).2 hx
  obtain ⟨hlt, hval⟩ := List.getElem?_eq_some_iff.1 hget
  rw [List.erase_eq_eraseIdx, List.idxOf?_eq_some_iff.2]
  refine ⟨hlt, by simp [hval], ?_⟩
  intro j hj
  have hne := lt_of_getElem? h (List.getElem?_eq_getElem (by omega)) hget hj
  simpa using ne_of_lt hne

end XPerl.Framework.SortedList
