import Mathlib.Tactic.Ring

/-! Wheels of different radices that turn together, as in an odometer. -/

namespace XPerl.Framework.Odometer

/-- A wheel shows one of the digits that its kind has. -/
@[ext]
structure Wheel {κ : Type} (radix : κ → Nat) where
  kind : κ
  digit : Nat
  lt : digit < radix kind

variable {κ : Type} {radix : κ → Nat} {w : Wheel radix} {ws vs : List (Wheel radix)}

namespace Wheel

def zero (w : Wheel radix) : Wheel radix := ⟨w.kind, 0, Nat.zero_lt_of_lt w.lt⟩

def next (w : Wheel radix) (h : w.digit + 1 < radix w.kind) : Wheel radix :=
  ⟨w.kind, w.digit + 1, h⟩

@[simp] theorem kind_zero (w : Wheel radix) : w.zero.kind = w.kind := rfl

@[simp] theorem digit_zero (w : Wheel radix) : w.zero.digit = 0 := rfl

@[simp] theorem kind_next (h : w.digit + 1 < radix w.kind) : (w.next h).kind = w.kind := rfl

@[simp] theorem digit_next (h : w.digit + 1 < radix w.kind) : (w.next h).digit = w.digit + 1 := rfl

end Wheel

def kinds (ws : List (Wheel radix)) : List κ := ws.map (·.kind)

@[simp] theorem kinds_nil : kinds ([] : List (Wheel radix)) = [] := rfl

@[simp] theorem kinds_cons : kinds (w :: ws) = w.kind :: kinds ws := rfl

@[simp] theorem length_kinds (ws : List (Wheel radix)) : (kinds ws).length = ws.length :=
  List.length_map _

@[simp] theorem kinds_zeros (ws : List (Wheel radix)) : kinds (ws.map Wheel.zero) = kinds ws := by
  simp [kinds]

def volume (ws : List (Wheel radix)) : Nat := (ws.map fun w => radix w.kind).prod

/-- The reading, with the first wheel the most significant one. -/
def value : List (Wheel radix) → Nat
  | [] => 0
  | w :: ws => w.digit * volume ws + value ws

@[simp] theorem volume_nil : volume ([] : List (Wheel radix)) = 1 := rfl

@[simp] theorem volume_cons : volume (w :: ws) = radix w.kind * volume ws := by simp [volume]

theorem volume_congr (h : kinds ws = kinds vs) : volume ws = volume vs := by
  have hmap (us : List (Wheel radix)) : us.map (fun w => radix w.kind) = (kinds us).map radix := by
    simp [kinds]
  rw [volume, volume, hmap, hmap, h]

theorem value_lt (ws : List (Wheel radix)) : value ws < volume ws := by
  induction ws with
  | nil => simp [value]
  | cons w ws ih =>
    have hdigit := Nat.mul_le_mul_right (volume ws) (Nat.succ_le_of_lt w.lt)
    rw [value, volume_cons]
    rw [Nat.succ_mul] at hdigit
    omega

theorem value_inj (hkinds : kinds ws = kinds vs) (h : value ws = value vs) : ws = vs := by
  induction ws generalizing vs with
  | nil => cases vs with
    | nil => rfl
    | cons v vs => cases hkinds
  | cons w ws ih => cases vs with
    | nil => cases hkinds
    | cons v vs =>
      rw [kinds_cons, kinds_cons, List.cons.injEq] at hkinds
      obtain ⟨hkind, hkinds⟩ := hkinds
      have hvolume := volume_congr hkinds
      have hws := value_lt ws
      have hvs := value_lt vs
      rw [value, value, ← hvolume] at h
      rw [← hvolume] at hvs
      have hdigit : w.digit = v.digit := by
        have hw := Nat.div_eq_of_lt_le (m := w.digit * volume ws + value ws) (n := volume ws)
          (k := w.digit) (by omega) (by rw [Nat.succ_mul]; omega)
        have hv := Nat.div_eq_of_lt_le (m := v.digit * volume ws + value vs) (n := volume ws)
          (k := v.digit) (by omega) (by rw [Nat.succ_mul]; omega)
        rw [← hw, h, hv]
      rw [hdigit] at h
      rw [ih hkinds (by omega), Wheel.ext hkind hdigit]

@[simp] theorem value_zeros (ws : List (Wheel radix)) : value (ws.map Wheel.zero) = 0 := by
  induction ws with
  | nil => rfl
  | cons w ws ih => simp [value, ih]

def turn : List (Wheel radix) → Bool × List (Wheel radix)
  | [] => (true, [])
  | w :: ws =>
    if (turn ws).1 then
      if h : w.digit + 1 < radix w.kind then (false, w.next h :: (turn ws).2)
      else (true, w.zero :: (turn ws).2)
    else (false, w :: (turn ws).2)

theorem turn_concat (ws : List (Wheel radix)) (w : Wheel radix) :
    turn (ws ++ [w]) = if h : w.digit + 1 < radix w.kind then (false, ws ++ [w.next h])
      else ((turn ws).1, (turn ws).2 ++ [w.zero]) := by
  induction ws with
  | nil => simp [turn]
  | cons v ws ih =>
    rw [List.cons_append, turn, ih]
    by_cases hw : w.digit + 1 < radix w.kind
    · simp [hw]
    · rw [dif_neg hw, dif_neg hw, turn]
      dsimp only
      split_ifs <;> rfl

@[simp] theorem kinds_turn (ws : List (Wheel radix)) : kinds (turn ws).2 = kinds ws := by
  induction ws with
  | nil => rfl
  | cons w ws ih =>
    rw [turn]
    split_ifs <;> simp [ih]

@[simp] theorem length_turn (ws : List (Wheel radix)) : (turn ws).2.length = ws.length := by
  rw [← length_kinds, kinds_turn, length_kinds]

theorem turn_carry (h : (turn ws).1 = true) :
    value ws + 1 = volume ws ∧ (turn ws).2 = ws.map Wheel.zero := by
  induction ws with
  | nil => exact ⟨rfl, rfl⟩
  | cons w ws ih =>
    rw [turn] at h ⊢
    split_ifs at h ⊢ with hcarry hnext
    obtain ⟨hvalue, hzeros⟩ := ih hcarry
    have hlt := w.lt
    have hend : radix w.kind = w.digit + 1 := by omega
    refine ⟨?_, by rw [hzeros]; rfl⟩
    rw [value, volume_cons, hend, ← hvalue]
    ring

theorem turn_carry_all (h : (turn ws).1 = true) (hw : w ∈ ws) : w.digit + 1 = radix w.kind := by
  induction ws with
  | nil => cases hw
  | cons v ws ih =>
    rw [turn] at h
    split_ifs at h with hcarry hnext
    rcases List.mem_cons.1 hw with rfl | hw
    · have hlt := w.lt
      omega
    · exact ih hcarry hw

theorem value_turn (h : (turn ws).1 = false) : value (turn ws).2 = value ws + 1 := by
  induction ws with
  | nil => cases h
  | cons w ws ih =>
    have hvolume := volume_congr (kinds_turn ws)
    rw [turn] at h ⊢
    split_ifs at h ⊢ with hcarry hnext
    · obtain ⟨hvalue, hzeros⟩ := turn_carry hcarry
      rw [value, value, hvolume, hzeros, value_zeros, Wheel.digit_next, ← hvalue]
      ring
    · rw [value, value, hvolume, ih (by simpa using hcarry)]
      ring

theorem turn_carry_iff (ws : List (Wheel radix)) :
    (turn ws).1 = true ↔ value ws + 1 = volume ws := by
  refine ⟨fun h => (turn_carry h).1, fun h => ?_⟩
  by_contra hno
  have hvalue := value_turn (by simpa using hno)
  have hlt := value_lt (turn ws).2
  rw [volume_congr (kinds_turn ws)] at hlt
  omega

end XPerl.Framework.Odometer
