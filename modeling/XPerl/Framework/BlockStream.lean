import Mathlib.Data.List.GetD
import Mathlib.Tactic.Common

/-! Streams that are absorbed in blocks of one size: how the input is split makes no difference. -/

namespace XPerl.Framework.BlockStream

variable {σ α : Type} (n : Nat) (compress : σ → List α → σ)

def absorb : Nat → σ → List α → σ
  | 0, s, _ => s
  | k + 1, s, m => absorb k (compress s (m.take n)) (m.drop n)

variable (σ α)

/-- The chaining state and what waits for the rest of its block. -/
structure Intake where
  state : σ
  pending : List α

variable {σ α}

/-- Take data in: absorb the blocks that are full, and keep the rest. -/
def push (s : Intake σ α) (data : List α) : Intake σ α where
  state := absorb n compress ((s.pending ++ data).length / n) s.state (s.pending ++ data)
  pending := (s.pending ++ data).drop ((s.pending ++ data).length / n * n)

variable {n compress}

variable {m data : List α}

theorem absorb_append (k j : Nat) (s : σ) (m' : List α) (hm : m.length = k * n) :
    absorb n compress (k + j) s (m ++ m') =
      absorb n compress j (absorb n compress k s m) m' := by
  induction k generalizing s m with
  | zero =>
    have hnil : m = [] := List.eq_nil_of_length_eq_zero (by simpa using hm)
    rw [hnil, Nat.zero_add, List.nil_append, absorb]
  | succ k ih =>
    have hlen : m.length = k * n + n := by rw [hm, Nat.succ_mul]
    have hdrop : (m.drop n).length = k * n := by rw [List.length_drop, hlen, Nat.add_sub_cancel]
    rw [Nat.succ_add, absorb, absorb, List.take_append_of_le_length (by omega),
      List.drop_append_of_le_length (by omega), ih _ hdrop]

theorem absorb_take (k : Nat) (s : σ) (hm : k * n ≤ m.length) :
    absorb n compress k s (m.take (k * n)) = absorb n compress k s m := by
  have hlen : (m.take (k * n)).length = k * n := by rw [List.length_take, Nat.min_eq_left hm]
  have h : absorb n compress (k + 0) s (m.take (k * n) ++ m.drop (k * n)) =
      absorb n compress 0 (absorb n compress k s (m.take (k * n))) (m.drop (k * n)) :=
    absorb_append k 0 s (m.drop (k * n)) hlen
  rw [List.take_append_drop, Nat.add_zero] at h
  rw [h, absorb]

theorem push_nil (s : Intake σ α) (h : s.pending.length < n) : push n compress s [] = s := by
  rw [push, List.append_nil, Nat.div_eq_of_lt h, Nat.zero_mul, List.drop_zero, absorb]

theorem push_of_lt (s : Intake σ α) (h : (s.pending ++ data).length < n) :
    push n compress s data = ⟨s.state, s.pending ++ data⟩ := by
  rw [push, Nat.div_eq_of_lt h, Nat.zero_mul, List.drop_zero, absorb]

theorem push_of_full (hn : 0 < n) (s : Intake σ α)
    (h : (s.pending ++ data).length = n) :
    push n compress s data = ⟨compress s.state (s.pending ++ data), []⟩ := by
  have htake : (s.pending ++ data).take n = s.pending ++ data :=
    List.take_of_length_le (Nat.le_of_eq h)
  have hdrop : (s.pending ++ data).drop n = [] := List.drop_of_length_le (Nat.le_of_eq h)
  rw [push, h, Nat.div_self hn, Nat.one_mul, hdrop, absorb, absorb, htake]

theorem length_pending_push_eq (s : Intake σ α) (data : List α) :
    (push n compress s data).pending.length = (s.pending.length + data.length) % n := by
  have hdiv := Nat.div_add_mod' (s.pending ++ data).length n
  rw [List.length_append] at hdiv
  rw [push, List.length_drop, List.length_append]
  omega

theorem push_push (hn : 0 < n) (s : Intake σ α) (a b : List α) :
    push n compress (push n compress s a) b = push n compress s (a ++ b) := by
  have hall : s.pending ++ (a ++ b) = (s.pending ++ a) ++ b := by rw [List.append_assoc]
  have hdiv := Nat.div_add_mod' (s.pending ++ a).length n
  rw [push, push, push, hall]
  generalize s.pending ++ a = front at hdiv
  generalize hk : front.length / n = k at hdiv
  have hsplit : front = front.take (k * n) ++ front.drop (k * n) := (List.take_append_drop _ _).symm
  have hlen : (front.take (k * n)).length = k * n := by
    rw [List.length_take, Nat.min_eq_left (by omega)]
  generalize hrest : front.drop (k * n) ++ b = rest
  have hfull : front ++ b = front.take (k * n) ++ rest := by
    rw [← hrest, ← List.append_assoc, List.take_append_drop]
  have hcount : (front ++ b).length / n = k + rest.length / n := by
    rw [hfull, List.length_append, hlen, Nat.add_comm, Nat.add_mul_div_right _ _ hn, Nat.add_comm]
  rw [hcount]
  congr 1
  · rw [hfull, absorb_append k _ s.state rest hlen, absorb_take k s.state (by omega)]
  · have hnone : (front.take (k * n)).drop (k * n) = [] := List.drop_of_length_le (Nat.le_of_eq hlen)
    have hle := Nat.le_of_eq hlen.symm
    rw [hfull, Nat.add_mul, ← List.drop_drop, List.drop_append_of_le_length hle, hnone,
      List.nil_append]

theorem push_of_dvd (s : σ) {k : Nat} (hn : 0 < n) (hm : m.length = k * n) :
    push n compress ⟨s, []⟩ m = ⟨absorb n compress k s m, []⟩ := by
  rw [push, List.nil_append, hm, Nat.mul_div_cancel _ hn, ← hm, List.drop_length]

end XPerl.Framework.BlockStream

/-! A flat memory: reading back what was stored, and what a store leaves alone. -/

namespace XPerl.Framework.FlatMemory

variable {α : Type}

/-- What is at each address. -/
abbrev Memory (α : Type) := Nat → α

/-- The cells from an address on. -/
def load (m : Memory α) (p length : Nat) : List α := (List.range length).map fun i => m (p + i)

/-- Overwrite the cells from an address on. -/
def store (m : Memory α) (p : Nat) (data : List α) : Memory α := fun a =>
  if p ≤ a then data.getD (a - p) (m a) else m a

@[simp]
theorem length_load (m : Memory α) (p length : Nat) : (load m p length).length = length := by
  rw [load, List.length_map, List.length_range]

variable {p : Nat} {data : List α}

theorem store_of_outside (m : Memory α) {a : Nat}
    (h : a < p ∨ p + data.length ≤ a) : store m p data a = m a := by
  rw [store]
  by_cases hp : p ≤ a
  · rw [if_pos hp, List.getD_eq_default _ _ (by omega)]
  · rw [if_neg hp]

theorem load_store (m : Memory α) (p : Nat) (data : List α) :
    load (store m p data) p data.length = data := by
  apply List.ext_getElem (length_load _ _ _)
  intro i hi hdata
  have hsub : p + i - p = i := Nat.add_sub_cancel_left p i
  simp only [load, List.getElem_map, List.getElem_range]
  rw [store, if_pos (Nat.le_add_right p i), hsub, List.getD_eq_getElem _ _ hdata]

theorem load_store_of_disjoint (m : Memory α) {q length : Nat}
    (h : q + length ≤ p ∨ p + data.length ≤ q) :
    load (store m p data) q length = load m q length := by
  apply List.map_congr_left
  intro i hi
  have hlt := List.mem_range.1 hi
  exact store_of_outside m (by omega)

end XPerl.Framework.FlatMemory
