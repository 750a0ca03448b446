import Mathlib.Data.BitVec

/-! Operations on words that lose nothing: xors with a shifted word, rotations, multiplications. -/

namespace XPerl.Framework.Scrambling

open Function

variable {w : Nat}

variable {e : BitVec w} {k : Nat}

theorem eq_zero_of_shiftLeft_eq (hk : 0 < k) (h : e <<< k = e) :
    e = 0 := by
  have hbit (i : Nat) : e.getLsbD i = false := by
    induction i using Nat.strong_induction_on with
    | _ i ih =>
      rw [← h, BitVec.getLsbD_shiftLeft]
      by_cases hi : i < k
      · simp [hi]
      · simp [ih (i - k) (by omega)]
  apply BitVec.eq_of_getLsbD_eq
  intro i hi
  rw [hbit i]
  simp

theorem eq_zero_of_shiftRight_eq (hk : 0 < k) (h : e >>> k = e) :
    e = 0 := by
  have hbit (d i : Nat) (hd : w ≤ i + d) : e.getLsbD i = false := by
    induction d using Nat.strong_induction_on generalizing i with
    | _ d ih =>
      by_cases hi : w ≤ i
      · exact BitVec.getLsbD_of_ge e i hi
      · rw [← h, BitVec.getLsbD_ushiftRight, Nat.add_comm]
        exact ih (d - k) (by omega) (i + k) (by omega)
  apply BitVec.eq_of_getLsbD_eq
  intro i hi
  rw [hbit w i (Nat.le_add_left w i)]
  simp

theorem xor_shiftLeft_injective (hk : 0 < k) :
    Injective fun x : BitVec w => x ^^^ x <<< k := by
  intro x y h
  have hxor : (x ^^^ y) <<< k = x ^^^ y := by
    apply Eq.symm
    rw [← BitVec.xor_eq_zero_iff, BitVec.shiftLeft_xor_distrib]
    have hcomm : x ^^^ y ^^^ (x <<< k ^^^ y <<< k) = (x ^^^ x <<< k) ^^^ (y ^^^ y <<< k) := by
      ac_rfl
    rw [hcomm, show x ^^^ x <<< k = y ^^^ y <<< k from h, BitVec.xor_self]
  exact BitVec.xor_eq_zero_iff.1 (eq_zero_of_shiftLeft_eq hk hxor)

theorem xor_shiftRight_injective (hk : 0 < k) :
    Injective fun x : BitVec w => x >>> k ^^^ x := by
  intro x y h
  have hxor : (x ^^^ y) >>> k = x ^^^ y := by
    rw [← BitVec.xor_eq_zero_iff, BitVec.ushiftRight_xor_distrib]
    have hcomm : x >>> k ^^^ y >>> k ^^^ (x ^^^ y) = (x >>> k ^^^ x) ^^^ (y >>> k ^^^ y) := by
      ac_rfl
    rw [hcomm, show x >>> k ^^^ x = y >>> k ^^^ y from h, BitVec.xor_self]
  exact BitVec.xor_eq_zero_iff.1 (eq_zero_of_shiftRight_eq hk hxor)

theorem xor_choice_injective {m : Nat} {choice : BitVec w → Nat}
    (hchoice : ∀ x : BitVec w, 0 < choice (x >>> m) ∧ w ≤ choice (x >>> m) + m) :
    Injective fun x : BitVec w => x >>> choice (x >>> m) ^^^ x := by
  intro x y h
  have htop (z : BitVec w) : (z >>> choice (z >>> m) ^^^ z) >>> m = z >>> m := by
    have hnone : z >>> choice (z >>> m) >>> m = 0#w := by
      rw [← BitVec.shiftRight_add]
      apply BitVec.eq_of_toNat_eq
      rw [BitVec.toNat_ushiftRight, Nat.shiftRight_eq_div_pow]
      have hlt : z.toNat < 2 ^ (choice (z >>> m) + m) :=
        Nat.lt_of_lt_of_le z.isLt (Nat.pow_le_pow_right Nat.two_pos (hchoice z).2)
      rw [Nat.div_eq_of_lt hlt]
      rfl
    rw [BitVec.ushiftRight_xor_distrib, hnone, BitVec.zero_xor]
  have hsame : x >>> m = y >>> m := by
    rw [← htop x, ← htop y]
    exact congrArg (fun z : BitVec w => z >>> m) h
  have hshift := (hchoice x).1
  dsimp only at h
  rw [← hsame] at h
  exact xor_shiftRight_injective hshift h

theorem mul_injective {a b : BitVec w} (h : a * b = 1) : Injective fun x => x * a := by
  intro x y hxy
  have hback (z : BitVec w) : z * a * b = z := by
    rw [mul_assoc, h, mul_one]
  rw [← hback x, ← hback y]
  exact congrArg (fun z => z * b) hxy

theorem rotate_injective (hk : k < w) :
    Injective fun x : BitVec w => x <<< k ||| x >>> (w - k) := by
  intro x y h
  have hbit (z : BitVec w) (i : Nat) (hi : i < w) :
      z.getLsbD i = (z <<< k ||| z >>> (w - k)).getLsbD ((i + k) % w) := by
    rw [BitVec.getLsbD_or, BitVec.getLsbD_shiftLeft, BitVec.getLsbD_ushiftRight]
    by_cases hwrap : i + k < w
    · have hnone : z.getLsbD (w - k + (i + k)) = false := BitVec.getLsbD_of_ge z _ (by omega)
      rw [Nat.mod_eq_of_lt hwrap, hnone, Nat.add_sub_cancel]
      simp [hwrap]
    · have hmod : (i + k) % w = i + k - w := by
        rw [Nat.mod_eq_sub_mod (by omega), Nat.mod_eq_of_lt (by omega)]
      have hback : w - k + (i + k - w) = i := by omega
      have hlow : i + k - w < k := by omega
      rw [hmod, hback]
      simp [hlow]
  apply BitVec.eq_of_getLsbD_eq
  intro i hi
  rw [hbit x i hi, hbit y i hi]
  exact congrArg (fun z : BitVec w => z.getLsbD ((i + k) % w)) h

end XPerl.Framework.Scrambling
