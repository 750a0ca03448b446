import Mathlib.Data.List.Forall2

/-! Boxes of places in row-major order: their number, the strides and the way back. -/

namespace XPerl.Framework.RowMajor

def volume : List Nat → Nat
  | [] => 1
  | d :: dims => d * volume dims

def strides : List Nat → List Nat
  | [] => []
  | _ :: dims => volume dims :: strides dims

/-- Coordinates within a shape. -/
abbrev Inside (coords shape : List Nat) : Prop := List.Forall₂ (· < ·) coords shape

def place : List Nat → List Nat → Nat
  | c :: coords, s :: steps => c * s + place coords steps
  | _, _ => 0

def unplace : List Nat → Nat → List Nat
  | [], _ => []
  | _ :: dims, i => i / volume dims :: unplace dims (i % volume dims)

@[simp] theorem length_strides (shape : List Nat) : (strides shape).length = shape.length := by
  induction shape with
  | nil => rfl
  | cons d dims ih => rw [strides, List.length_cons, List.length_cons, ih]

variable {shape coords : List Nat} {i : Nat}

theorem volume_pos (h : ∀ d ∈ shape, 0 < d) : 0 < volume shape := by
  induction shape with
  | nil => exact Nat.one_pos
  | cons d dims ih =>
    exact Nat.mul_pos (h d List.mem_cons_self) (ih fun x hx => h x (List.mem_cons_of_mem d hx))

theorem place_lt (h : Inside coords shape) :
    place coords (strides shape) < volume shape := by
  induction h with
  | nil => exact Nat.one_pos
  | @cons c d coords dims hc _ ih =>
    have hrow : (c + 1) * volume dims ≤ d * volume dims := Nat.mul_le_mul_right _ hc
    rw [Nat.succ_mul] at hrow
    rw [strides, place, volume]
    omega

theorem unplace_place (h : Inside coords shape) :
    unplace shape (place coords (strides shape)) = coords := by
  induction h with
  | nil => rfl
  | @cons c d coords dims hc hrest ih =>
    have hlt := place_lt hrest
    have hpos : 0 < volume dims := Nat.zero_lt_of_lt hlt
    rw [strides, place, unplace, Nat.add_comm, Nat.add_mul_div_right _ _ hpos,
      Nat.div_eq_of_lt hlt, Nat.zero_add, Nat.add_mul_mod_self_right, Nat.mod_eq_of_lt hlt, ih]

theorem inside_unplace (h : i < volume shape) :
    Inside (unplace shape i) shape := by
  induction shape generalizing i with
  | nil => exact List.Forall₂.nil
  | cons d dims ih =>
    rw [volume] at h
    have hpos : 0 < volume dims := Nat.pos_of_ne_zero fun hzero => by
      rw [hzero, Nat.mul_zero] at h
      exact absurd h (Nat.not_lt_zero i)
    exact List.Forall₂.cons (Nat.div_lt_of_lt_mul (by rwa [Nat.mul_comm] at h))
      (ih (Nat.mod_lt i hpos))

theorem place_unplace (h : i < volume shape) :
    place (unplace shape i) (strides shape) = i := by
  induction shape generalizing i with
  | nil => exact (Nat.lt_one_iff.1 h).symm
  | cons d dims ih =>
    rw [volume] at h
    have hpos : 0 < volume dims := Nat.pos_of_ne_zero fun hzero => by
      rw [hzero, Nat.mul_zero] at h
      exact absurd h (Nat.not_lt_zero i)
    rw [unplace, strides, place, ih (Nat.mod_lt i hpos), Nat.mul_comm]
    exact Nat.div_add_mod i (volume dims)

theorem existsUnique_place (h : i < volume shape) :
    ∃! coords, Inside coords shape ∧ place coords (strides shape) = i := by
  refine ⟨unplace shape i, ⟨inside_unplace h, place_unplace h⟩, ?_⟩
  intro coords hcoords
  obtain ⟨hinside, hplace⟩ := hcoords
  rw [← hplace, unplace_place hinside]

theorem place_lt_place {coords' : List Nat} (h : Inside coords shape)
    (h' : Inside coords' shape) (hlex : List.Lex (· < ·) coords coords') :
    place coords (strides shape) < place coords' (strides shape) := by
  induction h generalizing coords' with
  | nil =>
    cases h'
    cases hlex
  | @cons c d coords dims hc hrest ih =>
    cases h' with
    | @cons c' d coords' dims hc' hrest' =>
      rw [strides, place, place]
      cases hlex with
      | cons hlex =>
        have hlt := ih hrest' hlex
        omega
      | rel hlt =>
        have hplace := place_lt hrest
        have hrow : (c + 1) * volume dims ≤ c' * volume dims := Nat.mul_le_mul_right _ hlt
        rw [Nat.succ_mul] at hrow
        omega

end XPerl.Framework.RowMajor
