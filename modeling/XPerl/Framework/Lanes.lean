import Mathlib.Data.Nat.Bitwise
import Mathlib.Tactic.IntervalCases
import Mathlib.Tactic.Linarith
import Mathlib.Tactic.Ring

/-! Words of eight bytes that are worked on together. -/

namespace XPerl.Framework.Lanes

def ofBytes (b : Nat → BitVec 8) : BitVec 64 :=
  b 7 ++ b 6 ++ b 5 ++ b 4 ++ b 3 ++ b 2 ++ b 1 ++ b 0

theorem getLsbD_ofBytes (b : Nat → BitVec 8) {i j : Nat} (hi : i < 8) (hj : j < 8) :
    (ofBytes b).getLsbD (8 * i + j) = (b i).getLsbD j := by
  simp only [ofBytes, BitVec.getLsbD_append]
  interval_cases i <;> split_ifs <;> first | omega | (congr 1; omega)

theorem eq_of_lanes {x y : BitVec 64}
    (h : ∀ i < 8, ∀ j < 8, x.getLsbD (8 * i + j) = y.getLsbD (8 * i + j)) : x = y := by
  apply BitVec.eq_of_getLsbD_eq
  intro k hk
  have hlane := h (k / 8) (by omega) (k % 8) (by omega)
  rw [Nat.div_add_mod] at hlane
  exact hlane

theorem ofBytes_inj {a b : Nat → BitVec 8} :
    ofBytes a = ofBytes b ↔ ∀ i < 8, a i = b i := by
  constructor
  · intro h i hi
    apply BitVec.eq_of_getLsbD_eq
    intro j hj
    rw [← getLsbD_ofBytes a hi hj, h, getLsbD_ofBytes b hi hj]
  · intro h
    apply eq_of_lanes
    intro i hi j hj
    rw [getLsbD_ofBytes a hi hj, h i hi, getLsbD_ofBytes b hi hj]

theorem ofBytes_and (a b : Nat → BitVec 8) :
    ofBytes a &&& ofBytes b = ofBytes fun i => a i &&& b i := by
  apply eq_of_lanes
  intro i hi j hj
  rw [BitVec.getLsbD_and, getLsbD_ofBytes a hi hj, getLsbD_ofBytes b hi hj,
    getLsbD_ofBytes _ hi hj, BitVec.getLsbD_and]

theorem ofBytes_xor (a b : Nat → BitVec 8) :
    ofBytes a ^^^ ofBytes b = ofBytes fun i => a i ^^^ b i := by
  apply eq_of_lanes
  intro i hi j hj
  rw [BitVec.getLsbD_xor, getLsbD_ofBytes a hi hj, getLsbD_ofBytes b hi hj,
    getLsbD_ofBytes _ hi hj, BitVec.getLsbD_xor]

def spread (x : BitVec 64) : BitVec 64 :=
  let x := x ||| x <<< 1
  let x := x ||| x <<< 2
  x ||| x <<< 4

def zeroLanes (x : BitVec 64) : BitVec 64 := ~~~ spread x &&& 0x8080808080808080

theorem getLsbD_spread (x : BitVec 64) {i : Nat} (hi : i < 8) :
    (spread x).getLsbD (8 * i + 7) =
      (x.getLsbD (8 * i + 7) || x.getLsbD (8 * i + 6) || x.getLsbD (8 * i + 5) ||
        x.getLsbD (8 * i + 4) || x.getLsbD (8 * i + 3) || x.getLsbD (8 * i + 2) ||
        x.getLsbD (8 * i + 1) || x.getLsbD (8 * i + 0)) := by
  have hshift (y : BitVec 64) {k n : Nat} (hk : k < 64) (hn : n ≤ k) :
      (y <<< n).getLsbD k = y.getLsbD (k - n) := by
    rw [BitVec.getLsbD_shiftLeft, decide_eq_true hk, decide_eq_false (Nat.not_lt.2 hn)]
    rfl
  have hone {k : Nat} (hk : k < 64) (hpos : 1 ≤ k) :
      (x ||| x <<< 1).getLsbD k = (x.getLsbD k || x.getLsbD (k - 1)) := by
    rw [BitVec.getLsbD_or, hshift x hk hpos]
  have htwo {k : Nat} (hk : k < 64) (hpos : 3 ≤ k) :
      (x ||| x <<< 1 ||| (x ||| x <<< 1) <<< 2).getLsbD k =
        (x.getLsbD k || x.getLsbD (k - 1) || (x.getLsbD (k - 2) || x.getLsbD (k - 3))) := by
    rw [BitVec.getLsbD_or, hshift _ hk (by omega), hone hk (by omega), hone (by omega) (by omega)]
    rfl
  rw [spread, BitVec.getLsbD_or, hshift _ (by omega) (by omega), htwo (by omega) (by omega),
    htwo (by omega) (by omega)]
  simp only [Bool.or_assoc]
  rfl

def marks (c : Nat → Bool) : BitVec 64 := ofBytes fun i => if c i then 0x80 else 0

theorem topBits_eq : (0x8080808080808080 : BitVec 64) = marks fun _ => true := by decide

theorem getLsbD_mark (c : Bool) {j : Nat} (hj : j < 8) :
    (if c then 0x80 else 0 : BitVec 8).getLsbD j = (c && decide (j = 7)) := by
  cases c <;> interval_cases j <;> rfl

theorem byte_eq_zero_iff (b : BitVec 8) :
    (!(b.getLsbD 7 || b.getLsbD 6 || b.getLsbD 5 || b.getLsbD 4 || b.getLsbD 3 || b.getLsbD 2 ||
      b.getLsbD 1 || b.getLsbD 0)) = decide (b = 0) := by
  revert b
  decide

theorem zeroLanes_ofBytes (b : Nat → BitVec 8) :
    zeroLanes (ofBytes b) = marks fun i => b i = 0 := by
  apply eq_of_lanes
  intro i hi j hj
  rw [zeroLanes, topBits_eq, BitVec.getLsbD_and, marks, marks, getLsbD_ofBytes _ hi hj,
    getLsbD_ofBytes _ hi hj, getLsbD_mark _ hj, getLsbD_mark _ hj, Bool.true_and]
  by_cases htop : j = 7
  · subst htop
    rw [BitVec.getLsbD_not, getLsbD_spread _ hi, getLsbD_ofBytes b hi (by decide),
      getLsbD_ofBytes b hi (by decide), getLsbD_ofBytes b hi (by decide),
      getLsbD_ofBytes b hi (by decide), getLsbD_ofBytes b hi (by decide),
      getLsbD_ofBytes b hi (by decide), getLsbD_ofBytes b hi (by decide),
      getLsbD_ofBytes b hi (by decide), byte_eq_zero_iff, decide_eq_true (by omega : 8 * i + 7 < 64)]
    rfl
  · rw [decide_eq_false htop, Bool.and_false, Bool.and_false]

theorem count_marks (c : Nat → Bool) :
    ((marks c >>> 7) * 0x0101010101010101) >>> 56 =
      BitVec.ofNat 64 ((List.range 8).countP c) := by
  have hall : ∀ c₀ c₁ c₂ c₃ c₄ c₅ c₆ c₇ : Bool,
      ((((if c₇ then 0x80 else 0 : BitVec 8) ++ (if c₆ then 0x80 else 0 : BitVec 8) ++
        (if c₅ then 0x80 else 0 : BitVec 8) ++ (if c₄ then 0x80 else 0 : BitVec 8) ++
        (if c₃ then 0x80 else 0 : BitVec 8) ++ (if c₂ then 0x80 else 0 : BitVec 8) ++
        (if c₁ then 0x80 else 0 : BitVec 8) ++ (if c₀ then 0x80 else 0 : BitVec 8) : BitVec 64)
          >>> 7) * 0x0101010101010101) >>> 56 =
      BitVec.ofNat 64 (c₀.toNat + c₁.toNat + c₂.toNat + c₃.toNat + c₄.toNat + c₅.toNat + c₆.toNat +
        c₇.toNat) := by decide
  have hcount : (List.range 8).countP c = (c 0).toNat + (c 1).toNat + (c 2).toNat + (c 3).toNat +
      (c 4).toNat + (c 5).toNat + (c 6).toNat + (c 7).toNat := by
    have hone (b : Bool) : (if b = true then 1 else 0) = b.toNat := by cases b <;> rfl
    simp only [List.range_succ, List.range_zero, List.countP_append, List.countP_singleton,
      List.nil_append, hone]
  rw [marks, ofBytes, hall, hcount]

end XPerl.Framework.Lanes

/-! Sixty four bit words: signed operations that may not overflow, casts, windows of the top bits. -/

namespace XPerl.Framework

def FitsSigned (z : Int) : Prop := -2 ^ 63 ≤ z ∧ z < 2 ^ 63

instance (z : Int) : Decidable (FitsSigned z) :=
  inferInstanceAs (Decidable (-2 ^ 63 ≤ z ∧ z < 2 ^ 63))

def checked (z : Int) : Option Int64 :=
  if FitsSigned z then some (Int64.ofInt z) else none

theorem toInt_ofInt {z : Int} (h : FitsSigned z) : (Int64.ofInt z).toInt = z := by
  rcases h with ⟨hl, hu⟩
  apply Int64.toInt_ofInt_of_le hl hu

theorem checked_of_fits {z : Int} (h : FitsSigned z) : checked z = some (Int64.ofInt z) := by
  simp [checked, h]

theorem checked_of_not_fits {z : Int} (h : ¬ FitsSigned z) : checked z = none := by
  simp [checked, h]

theorem toNat_toUInt64 (i : Int64) : (i.toUInt64.toNat : Int) = i.toInt % 2 ^ 64 := by
  have h : i.toInt = (i.toUInt64.toNat : Int).bmod (2 ^ 64) := by
    change i.toBitVec.toInt = _
    rw [BitVec.toInt_eq_toNat_bmod]
    rfl
  have hlt : i.toUInt64.toNat < 2 ^ 64 := i.toUInt64.toNat_lt
  rw [h]
  have hm := Int.bmod_emod (x := (i.toUInt64.toNat : Int)) (m := 2 ^ 64)
  push_cast at hm ⊢
  omega

theorem toUInt64_of_nonneg {i : Int64} (h : ¬ i < 0) : (i.toUInt64.toNat : Int) = i.toInt := by
  have hcast := toNat_toUInt64 i
  have hlt := i.toInt_lt
  have hnonneg : ¬ i.toInt < 0 := fun hneg => h (Int64.lt_iff_toInt_lt.2 (by simpa using hneg))
  omega

theorem toInt_toInt64 (u : UInt64) (h : u.toNat < 2 ^ 63) : u.toInt64.toInt = u.toNat := by
  change u.toBitVec.toInt = _
  rw [BitVec.toInt_eq_toNat_of_lt]
  · rfl
  · change 2 * u.toNat < 2 ^ 64
    omega

theorem and_mask_eq_zero (x k : Nat) : x &&& (2 ^ (k + 1) - 2) = 0 ↔ x / 2 % 2 ^ k = 0 := by
  have hmask : (2 ^ (k + 1) - 2) / 2 = 2 ^ k - 1 := by
    rw [Nat.pow_succ]
    omega
  have hhigh : (x &&& (2 ^ (k + 1) - 2)) / 2 = x / 2 % 2 ^ k := by
    rw [Nat.and_div_two, hmask, Nat.and_two_pow_sub_one_eq_mod]
  have hlow : (x &&& (2 ^ (k + 1) - 2)) % 2 = 0 := by
    have heven : (2 ^ (k + 1) - 2) % 2 = 0 := by
      rw [Nat.pow_succ]
      omega
    rw [Nat.and_mod_two_pow (n := 1), heven]
    simp
  omega

theorem or_and_eq_zero (x y m : Nat) : (x ||| y) &&& m = 0 ↔ x &&& m = 0 ∧ y &&& m = 0 := by
  rw [Nat.and_or_distrib_right, Nat.or_eq_zero_iff]

end XPerl.Framework
