import Mathlib.Data.BitVec
import Mathlib.Data.Nat.Prime.Basic
import Mathlib.Dynamics.PeriodicPts.Defs
import Mathlib.Tactic.Linarith
import Mathlib.Tactic.Ring

/-! Congruential steps modulo a power of two: when they visit every word. -/

namespace XPerl.Framework.Congruential

open Function

def geometric {R : Type} [CommSemiring R] (a : R) : Nat → R
  | 0 => 0
  | n + 1 => a * geometric a n + 1

theorem geometric_add {R : Type} [CommSemiring R] (a : R) (m n : Nat) :
    geometric a (m + n) = a ^ n * geometric a m + geometric a n := by
  induction n with
  | zero => simp [geometric]
  | succ n ih =>
    rw [← Nat.add_assoc, geometric, geometric, ih]
    ring

theorem geometric_two_mul {R : Type} [CommSemiring R] (a : R) (m : Nat) :
    geometric a (2 * m) = geometric a m * (a ^ m + 1) := by
  rw [Nat.two_mul, geometric_add]
  ring

theorem map_geometric {R S : Type} [CommSemiring R] [CommSemiring S] (f : R →+* S) (a : R)
    (n : Nat) : f (geometric a n) = geometric (f a) n := by
  induction n with
  | zero => simp [geometric]
  | succ n ih => simp [geometric, ih]

theorem iterate_affine {R : Type} [CommRing R] (a c x : R) (n : Nat) :
    (fun y => a * y + c)^[n] x = x + geometric a n * ((a - 1) * x + c) := by
  induction n with
  | zero => simp [geometric]
  | succ n ih =>
    rw [iterate_succ_apply', ih, geometric]
    ring

variable {a : Nat}

theorem pow_mod_four (ha : a % 4 = 1) (n : Nat) : a ^ n % 4 = 1 := by
  rw [Nat.pow_mod, ha, Nat.one_pow]

theorem geometric_mod_two (ha : a % 4 = 1) (n : Nat) :
    geometric a n % 2 = n % 2 := by
  induction n with
  | zero => rfl
  | succ n ih =>
    have hodd : a % 2 = 1 := by omega
    rw [geometric, Nat.add_mod, Nat.mul_mod, hodd, Nat.one_mul, Nat.mod_mod, ih]
    omega

theorem two_pow_dvd_geometric (ha : a % 4 = 1) (k n : Nat) :
    2 ^ k ∣ geometric a n ↔ 2 ^ k ∣ n := by
  induction k generalizing n with
  | zero => simp
  | succ k ih =>
    have heven (m : Nat) (h : 2 ^ (k + 1) ∣ m) : m % 2 = 0 := by
      rw [Nat.pow_succ] at h
      exact Nat.mod_eq_zero_of_dvd (Dvd.dvd.trans (Dvd.intro_left (2 ^ k) rfl) h)
    have hparity := geometric_mod_two ha n
    by_cases hn : n % 2 = 0
    · obtain ⟨m, hm⟩ := Nat.dvd_of_mod_eq_zero hn
      have hhalf := pow_mod_four ha m
      obtain ⟨j, hj⟩ : ∃ j, a ^ m + 1 = 2 * (2 * j + 1) := ⟨(a ^ m + 1) / 4, by omega⟩
      have hcoprime : Nat.Coprime (2 ^ k) (2 * j + 1) :=
        Nat.Coprime.pow_left k (by simp)
      have hsplit : geometric a n = 2 * (geometric a m * (2 * j + 1)) := by
        rw [hm, geometric_two_mul, hj]
        ring
      rw [hsplit, hm, Nat.pow_succ, Nat.mul_comm (2 ^ k) 2,
        Nat.mul_dvd_mul_iff_left Nat.two_pos, Nat.mul_dvd_mul_iff_left Nat.two_pos,
        hcoprime.dvd_mul_right, ih]
    · constructor
      · intro h
        have h0 := heven _ h
        omega
      · intro h
        exact absurd (heven n h) hn

section Period

variable {w : Nat}

theorem natCast_eq_zero_iff (n : Nat) : (n : BitVec w) = 0 ↔ 2 ^ w ∣ n := by
  rw [← BitVec.toNat_inj, BitVec.natCast_eq_ofNat, BitVec.toNat_ofNat]
  simp [Nat.dvd_iff_mod_eq_zero]

theorem natCast_toNat (a : BitVec w) : ((a.toNat : Nat) : BitVec w) = a := by
  rw [BitVec.natCast_eq_ofNat, BitVec.ofNat_toNat, BitVec.setWidth_eq]

variable {a c : BitVec w}

theorem isPeriodicPt_affine_iff (ha : a.toNat % 4 = 1) (hc : c.toNat % 2 = 1)
    (x : BitVec w) (n : Nat) : IsPeriodicPt (fun y => a * y + c) n x ↔ 2 ^ w ∣ n := by
  have hgeometric : geometric a n = ((geometric a.toNat n : Nat) : BitVec w) := by
    have h := map_geometric (Nat.castRingHom (BitVec w)) a.toNat n
    rw [Nat.coe_castRingHom, natCast_toNat] at h
    exact h.symm
  obtain ⟨q, hq⟩ : ∃ q, a.toNat = 4 * q + 1 := ⟨a.toNat / 4, by omega⟩
  have hadvance : (a - 1) * x + c = ((4 * q * x.toNat + c.toNat : Nat) : BitVec w) := by
    have hsub : a - 1 = ((4 * q : Nat) : BitVec w) := by
      rw [← natCast_toNat a, hq, Nat.cast_succ, add_sub_cancel_right]
    rw [hsub, Nat.cast_add, Nat.cast_mul _ x.toNat, natCast_toNat, natCast_toNat]
  have hcoprime : Nat.Coprime (2 ^ w) (4 * q * x.toNat + c.toNat) := by
    apply Nat.Coprime.pow_left
    have heven : 4 * q * x.toNat = 2 * (2 * q * x.toNat) := by ring
    rw [Nat.coprime_two_left, Nat.odd_iff]
    omega
  rw [IsPeriodicPt, IsFixedPt, iterate_affine, add_eq_left, hgeometric, hadvance, ← Nat.cast_mul,
    natCast_eq_zero_iff, hcoprime.dvd_mul_right, two_pow_dvd_geometric ha]

theorem minimalPeriod_affine (ha : a.toNat % 4 = 1) (hc : c.toNat % 2 = 1)
    (x : BitVec w) : minimalPeriod (fun y => a * y + c) x = 2 ^ w := by
  apply Nat.dvd_antisymm
  · apply IsPeriodicPt.minimalPeriod_dvd
    rw [isPeriodicPt_affine_iff ha hc]
  · rw [← isPeriodicPt_affine_iff ha hc x]
    exact isPeriodicPt_minimalPeriod _ x

theorem existsUnique_iterate_affine (ha : a.toNat % 4 = 1)
    (hc : c.toNat % 2 = 1) (x y : BitVec w) :
    ∃! n, n < 2 ^ w ∧ (fun y => a * y + c)^[n] x = y := by
  have hperiod := minimalPeriod_affine ha hc x
  have hinjective (i j : Nat) (hi : i < 2 ^ w) (hj : j < 2 ^ w)
      (h : (fun y => a * y + c)^[i] x = (fun y => a * y + c)^[j] x) : i = j := by
    rw [← hperiod] at hi hj
    exact iterate_injOn_Iio_minimalPeriod hi hj h
  have hsurjective : Surjective fun n : Fin (2 ^ w) => ((fun y => a * y + c)^[n.val] x).toFin := by
    apply Finite.surjective_of_injective
    intro i j h
    exact Fin.ext (hinjective i j i.isLt j.isLt (BitVec.toFin_inj.1 h))
  obtain ⟨n, hn⟩ := hsurjective y.toFin
  refine ⟨n.val, ⟨n.isLt, BitVec.toFin_inj.1 hn⟩, ?_⟩
  intro j hj
  exact hinjective j n.val hj.1 n.isLt (hj.2.trans (BitVec.toFin_inj.1 hn).symm)

end Period

end XPerl.Framework.Congruential

/-! Powers by repeated squaring, with the bits of the exponent taken from the low end. -/

namespace XPerl.Framework

variable {α : Type}

/-- `while (power >>= 1) { base *= base; if (power & 1) result *= base; }` -/
def squareLoop (mul : α → α → α) : Nat → Nat → α → α → α
  | 0, _, _, result => result
  | fuel + 1, power, base, result =>
    let power := power / 2
    if power = 0 then result
    else
      let base := mul base base
      let result := if power % 2 = 1 then mul result base else result
      squareLoop mul fuel power base result

def powerBySquaring (mul : α → α → α) (one base : α) (fuel power : Nat) : α :=
  squareLoop mul fuel power base (if power % 2 = 1 then mul one base else one)

variable {mul : α → α → α} {R : α → Nat → Prop} {total : Nat}

variable {fuel power : Nat} {base : α}

theorem squareLoop_spec
    (hmul : ∀ a b i j, R a i → R b j → i + j ≤ total → R (mul a b) (i + j))
    {result : α} {i j : Nat} (hfuel : power < 2 ^ (fuel + 1)) (hbase : R base i)
    (hresult : R result j) (htotal : j + i * (2 * (power / 2)) = total) :
    R (squareLoop mul fuel power base result) total := by
  induction fuel generalizing power base result i j with
  | zero =>
    have hzero : power / 2 = 0 := by omega
    rw [hzero] at htotal
    simpa [squareLoop, ← htotal] using hresult
  | succ fuel ih =>
    unfold squareLoop
    dsimp only
    split_ifs with hzero hodd
    · rw [hzero] at htotal
      simpa [← htotal] using hresult
    · have hhalf : power / 2 = 2 * (power / 2 / 2) + 1 := by omega
      have hsplit : i * (2 * (power / 2)) = (i + i) + (i + i) * (2 * (power / 2 / 2)) := by
        calc i * (2 * (power / 2)) = i * (2 * (2 * (power / 2 / 2) + 1)) := by rw [← hhalf]
          _ = _ := by ring
      have hsquare := hmul base base i i hbase hbase (by omega)
      have hproduct := hmul result _ j (i + i) hresult hsquare (by omega)
      exact ih (by rw [Nat.pow_succ] at hfuel; omega) hsquare hproduct (by omega)
    · have hhalf : power / 2 = 2 * (power / 2 / 2) := by omega
      have hsplit : i * (2 * (power / 2)) = (i + i) * (2 * (power / 2 / 2)) := by
        rw [← hhalf]
        ring
      have hle : i + i ≤ i * (2 * (power / 2)) := by
        have hpos : 1 ≤ power / 2 := by omega
        nlinarith
      have hsquare := hmul base base i i hbase hbase (by omega)
      exact ih (by rw [Nat.pow_succ] at hfuel; omega) hsquare hresult (by omega)

theorem powerBySquaring_spec {one : α}
    (hmul : ∀ a b i j, R a i → R b j → i + j ≤ power → R (mul a b) (i + j))
    (hfuel : power < 2 ^ (fuel + 1)) (hone : R one 0) (hbase : R base 1) :
    R (powerBySquaring mul one base fuel power) power := by
  unfold powerBySquaring
  split_ifs with hodd
  · have hfirst := hmul one base 0 1 hone hbase (by omega)
    exact squareLoop_spec hmul hfuel hbase hfirst (by omega)
  · exact squareLoop_spec hmul hfuel hbase hone (by omega)

end XPerl.Framework
