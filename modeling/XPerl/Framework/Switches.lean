import Mathlib.Data.List.Pairwise
import Mathlib.Order.Lattice

/-! Subsets of an order by the places where membership switches. -/

namespace XPerl.Framework.Switches

variable {α : Type} [LinearOrder α] {xs ys zs : List α} {x y v : α} {p q : Bool} {m n : Nat}

/-- The state at a place, from the state before the first switch. -/
def state (p : Bool) : List α → α → Bool
  | [], _ => p
  | x :: xs, v => if x ≤ v then state (!p) xs v else p

def flips (p : Bool) (n : Nat) : Bool := if n % 2 = 0 then p else !p

@[simp] theorem state_nil (p : Bool) (v : α) : state p [] v = p := rfl

theorem state_of_le (h : x ≤ v) : state p (x :: xs) v = state (!p) xs v := if_pos h

theorem state_of_lt (h : v < x) : state p (x :: xs) v = p := if_neg (not_le.2 h)

theorem flips_succ (p : Bool) (n : Nat) : flips p (n + 1) = flips (!p) n := by
  rw [flips, flips]
  split_ifs
  · omega
  · exact (Bool.not_not p).symm
  · rfl
  · omega

theorem state_append_le (h : ∀ x ∈ xs, x ≤ v) :
    state p (xs ++ ys) v = state (flips p xs.length) ys v := by
  induction xs generalizing p with
  | nil => rfl
  | cons x xs ih =>
    obtain ⟨hx, hxs⟩ := List.forall_mem_cons.1 h
    rw [List.cons_append, state_of_le hx, ih hxs, List.length_cons, flips_succ]

theorem state_all_le (h : ∀ x ∈ xs, x ≤ v) : state p xs v = flips p xs.length := by
  have happend : state p (xs ++ []) v = flips p xs.length := state_append_le h
  rw [List.append_nil] at happend
  exact happend

theorem state_append_lt (h : ∀ y ∈ ys, v < y) : state p (xs ++ ys) v = state p xs v := by
  induction xs generalizing p with
  | nil =>
    cases ys with
    | nil => rfl
    | cons y ys => exact state_of_lt (h y List.mem_cons_self)
  | cons x xs ih =>
    rw [List.cons_append, state, state, ih]

theorem state_all_lt (h : ∀ x ∈ xs, v < x) : state p xs v = p :=
  (state_append_lt h : state p ([] ++ xs) v = state p [] v)

theorem state_not (p : Bool) (xs : List α) (v : α) : state (!p) xs v = !state p xs v := by
  induction xs generalizing p with
  | nil => rfl
  | cons x xs ih =>
    rw [state, state]
    split_ifs
    · exact ih _
    · rfl

theorem eq_of_state (hxs : xs.Pairwise (· < ·)) (hys : ys.Pairwise (· < ·))
    (p : Bool) (h : ∀ v, v ∈ xs ∨ v ∈ ys → state p xs v = state p ys v) : xs = ys := by
  induction xs generalizing p ys with
  | nil =>
    cases ys with
    | nil => rfl
    | cons y ys =>
      have hy := h y (.inr List.mem_cons_self)
      rw [state_nil, state_of_le le_rfl, state_all_lt (List.pairwise_cons.1 hys).1] at hy
      exact absurd hy (by cases p <;> decide)
  | cons x xs ih =>
    obtain ⟨hx, hxs⟩ := List.pairwise_cons.1 hxs
    have hxx := h x (.inl List.mem_cons_self)
    rw [state_of_le le_rfl, state_all_lt hx] at hxx
    cases ys with
    | nil =>
      rw [state_nil] at hxx
      exact absurd hxx (by cases p <;> decide)
    | cons y ys =>
      obtain ⟨hy, hys'⟩ := List.pairwise_cons.1 hys
      rcases lt_trichotomy x y with hlt | heq | hlt
      · rw [state_of_lt hlt] at hxx
        exact absurd hxx (by cases p <;> decide)
      · subst heq
        have hrest : xs = ys := by
          refine ih hxs hys' (!p) fun v hv => ?_
          have hlt : x < v := hv.elim (hx v) (hy v)
          have hstate := h v (hv.imp (List.mem_cons_of_mem _) (List.mem_cons_of_mem _))
          rw [state_of_le hlt.le, state_of_le hlt.le] at hstate
          exact hstate
        rw [hrest]
      · have hyy := h y (.inr List.mem_cons_self)
        rw [state_of_lt hlt, state_of_le le_rfl, state_all_lt hy] at hyy
        exact absurd hyy (by cases p <;> decide)

section Walk

variable {op : Bool → Bool → Bool} {first : Bool → Bool}

/-- A walk over two lists of switches that keeps where the state that `op` makes changes; `first`
goes first at a common place. -/
def walk (op : Bool → Bool → Bool) (first : Bool → Bool) (p q : Bool) : List α → List α → List α
  | [], ys => if op p true = op p false then [] else ys
  | x :: xs, [] => if op true q = op false q then [] else x :: xs
  | x :: xs, y :: ys =>
    if x < y ∨ (x = y ∧ first p = true) then
      if op p q = op (!p) q then walk op first (!p) q xs (y :: ys)
      else x :: walk op first (!p) q xs (y :: ys)
    else
      if op p q = op p (!q) then walk op first p (!q) (x :: xs) ys
      else y :: walk op first p (!q) (x :: xs) ys
termination_by xs ys => xs.length + ys.length

theorem mem_of_mem_walk (h : v ∈ walk op first p q xs ys) : v ∈ xs ∨ v ∈ ys := by
  fun_induction walk op first p q xs ys with
  | case1 => cases h
  | case2 p q ys hop => exact .inr h
  | case3 => cases h
  | case4 p q x xs hop => exact .inl h
  | case5 p q x xs y ys hfirst hop ih => exact (ih h).imp_left (List.mem_cons_of_mem _)
  | case6 p q x xs y ys hfirst hop ih =>
    rcases List.mem_cons.1 h with h | h
    · exact .inl (h ▸ List.mem_cons_self)
    · exact (ih h).imp_left (List.mem_cons_of_mem _)
  | case7 p q x xs y ys hfirst hop ih => exact (ih h).imp_right (List.mem_cons_of_mem _)
  | case8 p q x xs y ys hfirst hop ih =>
    rcases List.mem_cons.1 h with h | h
    · exact .inr (h ▸ List.mem_cons_self)
    · exact (ih h).imp_right (List.mem_cons_of_mem _)

theorem length_walk_le (op : Bool → Bool → Bool) (first : Bool → Bool) (p q : Bool)
    (xs ys : List α) : (walk op first p q xs ys).length ≤ xs.length + ys.length := by
  fun_induction walk op first p q xs ys with
  | case1 => exact Nat.zero_le _
  | case2 p q ys hop => exact Nat.le_add_left _ _
  | case3 => exact Nat.zero_le _
  | case4 p q x xs hop => exact Nat.le_add_right _ _
  | case5 p q x xs y ys hfirst hop ih =>
    simp only [List.length_cons] at ih ⊢
    omega
  | case6 p q x xs y ys hfirst hop ih =>
    simp only [List.length_cons] at ih ⊢
    omega
  | case7 p q x xs y ys hfirst hop ih =>
    simp only [List.length_cons] at ih ⊢
    omega
  | case8 p q x xs y ys hfirst hop ih =>
    simp only [List.length_cons] at ih ⊢
    omega

theorem state_congr_op {f : Bool → Bool} (h : f true ≠ f false) (p : Bool) (xs : List α) (v : α) :
    state (f p) xs v = f (state p xs v) := by
  have hnot (b : Bool) : f (!b) = !f b := by
    cases b <;> cases hf : f true <;> cases hf' : f false <;> simp_all
  induction xs generalizing p with
  | nil => rfl
  | cons x xs ih =>
    rw [state, state]
    split_ifs
    · rw [← hnot, ih]
    · rfl

theorem op_eq_of_const {f : Bool → Bool} (h : f true = f false) (a b : Bool) : f a = f b := by
  cases a <;> cases b <;> simp only [h]

theorem le_of_first (hys : (y :: ys).Pairwise (· < ·)) (h : x < y ∨ (x = y ∧ first p = true)) :
    ∀ z ∈ y :: ys, x ≤ z := by
  intro z hz
  have hle : x ≤ y := h.elim le_of_lt fun h => le_of_eq h.1
  rcases List.mem_cons.1 hz with hz | hz
  · exact hz ▸ hle
  · exact hle.trans ((List.pairwise_cons.1 hys).1 z hz).le

theorem le_of_not_first (hxs : (x :: xs).Pairwise (· < ·))
    (h : ¬ (x < y ∨ (x = y ∧ first p = true))) : ∀ z ∈ x :: xs, y ≤ z := by
  intro z hz
  have hle : y ≤ x := not_lt.1 fun hlt => h (.inl hlt)
  rcases List.mem_cons.1 hz with hz | hz
  · exact hz ▸ hle
  · exact hle.trans ((List.pairwise_cons.1 hxs).1 z hz).le

theorem state_step (op : Bool → Bool → Bool) {ws : List α} (hxs : ∀ z ∈ xs, x < z)
    (hys : ∀ z ∈ ys, x ≤ z)
    (hws : ∀ z ∈ ws, z ∈ xs ∨ z ∈ ys)
    (h : state (op (!p) q) ws v = op (state (!p) xs v) (state q ys v)) :
    state (op p q) (if op p q = op (!p) q then ws else x :: ws) v =
      op (state p (x :: xs) v) (state q ys v) := by
  rcases le_or_gt x v with hv | hv
  · rw [state_of_le hv, ← h]
    split_ifs with hop
    · rw [hop]
    · rw [state_of_le hv, Bool.not_eq.2 hop]
  · have hafter (z : α) (hz : z ∈ ws) : v < z :=
      (hws z hz).elim (fun hz => hv.trans (hxs z hz)) fun hz => hv.trans_le (hys z hz)
    rw [state_of_lt hv, state_all_lt fun z hz => hv.trans_le (hys z hz)]
    split_ifs
    · exact state_all_lt hafter
    · exact state_of_lt hv

theorem state_walk (op : Bool → Bool → Bool) (p q : Bool) (hxs : xs.Pairwise (· < ·))
    (hys : ys.Pairwise (· < ·)) (v : α) :
    state (op p q) (walk op first p q xs ys) v = op (state p xs v) (state q ys v) := by
  fun_induction walk op first p q xs ys with
  | case1 p q ys hop => exact op_eq_of_const hop _ _
  | case2 p q ys hop => exact state_congr_op hop q ys v
  | case3 p q x xs hop => exact op_eq_of_const (f := fun b => op b q) hop _ _
  | case4 p q x xs hop => exact state_congr_op (f := fun b => op b q) hop p (x :: xs) v
  | case5 p q x xs y ys hfirst hop ih =>
    obtain ⟨hx, hxs⟩ := List.pairwise_cons.1 hxs
    have hstep := state_step op hx (le_of_first hys hfirst) (fun z => mem_of_mem_walk) (ih hxs hys)
    rw [if_pos hop] at hstep
    exact hstep
  | case6 p q x xs y ys hfirst hop ih =>
    obtain ⟨hx, hxs⟩ := List.pairwise_cons.1 hxs
    have hstep := state_step op hx (le_of_first hys hfirst) (fun z => mem_of_mem_walk) (ih hxs hys)
    rw [if_neg hop] at hstep
    exact hstep
  | case7 p q x xs y ys hfirst hop ih =>
    obtain ⟨hy, hys⟩ := List.pairwise_cons.1 hys
    have hstep := state_step (fun a b => op b a) hy (le_of_not_first hxs hfirst)
      (fun z hz => (mem_of_mem_walk hz).symm) (ih hxs hys)
    rw [if_pos hop] at hstep
    exact hstep
  | case8 p q x xs y ys hfirst hop ih =>
    obtain ⟨hy, hys⟩ := List.pairwise_cons.1 hys
    have hstep := state_step (fun a b => op b a) hy (le_of_not_first hxs hfirst)
      (fun z hz => (mem_of_mem_walk hz).symm) (ih hxs hys)
    rw [if_neg hop] at hstep
    exact hstep

/-- At a common place the list that goes first leaves the other no change to make. -/
structure Fair (op : Bool → Bool → Bool) (first : Bool → Bool) : Prop where
  left : ∀ p q, first p = true → op (!p) q = op (!p) (!q)
  right : ∀ p q, first p = false → op p q = op p (!q)

theorem walk_skip (hxs : ∀ z ∈ xs, y < z) (h : op p q = op p (!q)) :
    walk op first p q xs (y :: ys) = walk op first p (!q) xs ys := by
  cases xs with
  | nil =>
    have hconst : op p true = op p false := by
      cases q with
      | false => exact h.symm
      | true => exact h
    rw [walk, walk, if_pos hconst, if_pos hconst]
  | cons x xs =>
    have hlt := hxs x List.mem_cons_self
    rw [walk, if_neg fun hor => hor.elim (lt_asymm hlt) fun hand => hlt.ne' hand.1, if_pos h]

theorem walk_pairwise (hfair : Fair op first) (hxs : xs.Pairwise (· < ·))
    (hys : ys.Pairwise (· < ·)) : (walk op first p q xs ys).Pairwise (· < ·) := by
  fun_induction walk op first p q xs ys with
  | case1 => exact .nil
  | case2 p q ys hop => exact hys
  | case3 => exact .nil
  | case4 p q x xs hop => exact hxs
  | case5 p q x xs y ys hfirst hop ih => exact ih (List.pairwise_cons.1 hxs).2 hys
  | case6 p q x xs y ys hfirst hop ih =>
    obtain ⟨hx, hxs⟩ := List.pairwise_cons.1 hxs
    refine List.pairwise_cons.2 ⟨fun z hz => ?_, ih hxs hys⟩
    obtain ⟨hy, -⟩ := List.pairwise_cons.1 hys
    rcases hfirst with hlt | htie
    · refine (mem_of_mem_walk hz).elim (hx z) fun hz => ?_
      rcases List.mem_cons.1 hz with hz | hz
      · exact hz ▸ hlt
      · exact hlt.trans (hy z hz)
    · obtain ⟨heq, hfirst⟩ := htie
      subst heq
      rw [walk_skip hx (hfair.left p q hfirst)] at hz
      exact (mem_of_mem_walk hz).elim (hx z) (hy z)
  | case7 p q x xs y ys hfirst hop ih => exact ih hxs (List.pairwise_cons.1 hys).2
  | case8 p q x xs y ys hfirst hop ih =>
    obtain ⟨hy, hys⟩ := List.pairwise_cons.1 hys
    refine List.pairwise_cons.2 ⟨fun z hz => ?_, ih hxs hys⟩
    rw [not_or, not_and, not_lt] at hfirst
    have hlt : y < x := by
      refine lt_of_le_of_ne hfirst.1 fun heq => hop (hfair.right p q ?_)
      exact Bool.eq_false_iff.2 (hfirst.2 heq.symm)
    refine (mem_of_mem_walk hz).elim (fun hz => ?_) (hy z)
    rcases List.mem_cons.1 hz with hz | hz
    · exact hz ▸ hlt
    · exact hlt.trans ((List.pairwise_cons.1 hxs).1 z hz)

end Walk

end XPerl.Framework.Switches
