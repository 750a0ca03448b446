import Mathlib.Data.Nat.Dist

/-! Binary floating-point formats: bits, the values they stand for, rounding to nearest even. -/

namespace XPerl.Framework.Rounding

/-- What bits stand for: a magnitude is `m * 2 ^ e`, and a NaN's payload its fraction in 52 bits. -/
inductive Datum where
  | nan (negative : Bool) (payload : Nat)
  | infinite (negative : Bool)
  | finite (negative : Bool) (m : Nat) (e : Int)
  deriving DecidableEq, Repr

/-- A format by its bits of fraction and of exponent, and the exponent of its last place. -/
structure Format where
  fraction : Nat
  exponent : Nat
  lowest : Int

/-- The formats of 32 and of 64 bits. -/
def single : Format := ⟨23, 8, -149⟩

def double : Format := ⟨52, 11, -1074⟩

def Format.span (f : Format) : Nat := 2 ^ f.fraction

def Format.sign (f : Format) : Nat := 2 ^ f.exponent * f.span

def Format.top (f : Format) : Nat := (2 ^ f.exponent - 1) * f.span

/-- `m / 2 ^ s` to the nearest integer, ties to even. -/
def shiftNearest (m s : Nat) : Nat :=
  if m % 2 ^ s * 2 > 2 ^ s ∨ (m % 2 ^ s * 2 = 2 ^ s ∧ m / 2 ^ s % 2 = 1) then m / 2 ^ s + 1
  else m / 2 ^ s

def Format.place (f : Format) (m : Nat) (e : Int) : Int :=
  max ((m.log2 : Int) + e - f.fraction) f.lowest

def Format.units (f : Format) (m : Nat) (e : Int) : Nat :=
  if f.place m e ≤ e then m * 2 ^ (e - f.place m e).toNat
  else shiftNearest m (f.place m e - e).toNat

def Format.magnitude (f : Format) (m : Nat) (e : Int) : Nat :=
  if m = 0 then 0
  else min ((f.place m e - f.lowest).toNat * f.span + f.units m e) f.top

def Format.decode (f : Format) (bits : Nat) : Datum :=
  let negative := bits / f.sign % 2 == 1
  let field := bits % f.sign / f.span
  let fraction := bits % f.span
  if field = 2 ^ f.exponent - 1 then
    if fraction = 0 then .infinite negative else .nan negative (fraction * 2 ^ (52 - f.fraction))
  else if field = 0 then .finite negative fraction f.lowest
  else .finite negative (fraction + f.span) (f.lowest + field - 1)

def Format.encode (f : Format) : Datum → Nat
  | .nan negative payload =>
    negative.toNat * f.sign + (f.top + payload / 2 ^ (52 - f.fraction))
  | .infinite negative => negative.toNat * f.sign + f.top
  | .finite negative m e => negative.toNat * f.sign + f.magnitude m e

/-- The finite datum that a format has for a magnitude, overflow apart. -/
def Format.round (f : Format) (negative : Bool) (m : Nat) (e : Int) : Datum :=
  if m = 0 then .finite negative 0 0 else .finite negative (f.units m e) (f.place m e)

theorem shiftNearest_mul (n s : Nat) : shiftNearest (n * 2 ^ s) s = n := by
  have hpos : 0 < 2 ^ s := Nat.two_pow_pos s
  rw [shiftNearest, Nat.mul_mod_left, Nat.mul_div_cancel _ hpos, if_neg]
  omega

theorem shiftNearest_bounds (m s : Nat) :
    m / 2 ^ s ≤ shiftNearest m s ∧ shiftNearest m s ≤ m / 2 ^ s + 1 := by
  rw [shiftNearest]
  split <;> omega

section RoundTrip

variable {f : Format}

theorem Format.span_pos (f : Format) : 0 < f.span := Nat.two_pow_pos _

theorem magnitude_subnormal {m : Nat} (hm : m < f.span) (htop : f.span ≤ f.top) :
    f.magnitude m f.lowest = m := by
  rw [Format.magnitude]
  by_cases hzero : m = 0
  · rw [if_pos hzero, hzero]
  · have hlog : m.log2 < f.fraction := (Nat.log2_lt hzero).2 hm
    have hplace : f.place m f.lowest = f.lowest := by
      rw [Format.place]
      omega
    rw [if_neg hzero, Format.units, hplace, if_pos (Int.le_refl _), Int.sub_self, Int.toNat_zero,
      Nat.pow_zero, Nat.mul_one, Nat.zero_mul, Nat.zero_add]
    exact Nat.min_eq_left (by omega)

theorem magnitude_normal {fraction field : Nat} (hfraction : fraction < f.span) (hfield : 0 < field)
    (htop : field * f.span + fraction ≤ f.top) :
    f.magnitude (fraction + f.span) (f.lowest + field - 1) = field * f.span + fraction := by
  have hpos := f.span_pos
  have hne : fraction + f.span ≠ 0 := by omega
  have hlog : (fraction + f.span).log2 = f.fraction := by
    apply Nat.le_antisymm
    · apply Nat.le_of_lt_succ
      rw [Nat.log2_lt hne, Nat.pow_succ]
      simp only [Format.span] at hfraction ⊢
      omega
    · rw [Nat.le_log2 hne]
      exact Nat.le_add_left _ _
  have hplace : f.place (fraction + f.span) (f.lowest + field - 1) = f.lowest + field - 1 := by
    rw [Format.place, hlog]
    omega
  have hup : (f.lowest + field - 1 - f.lowest).toNat = field - 1 := by omega
  rw [Format.magnitude, if_neg hne, Format.units, hplace, if_pos (Int.le_refl _), Int.sub_self,
    Int.toNat_zero, Nat.pow_zero, Nat.mul_one, hup]
  have hrow : (field - 1) * f.span + (fraction + f.span) = field * f.span + fraction := by
    obtain ⟨k, rfl⟩ := Nat.exists_eq_succ_of_ne_zero (Nat.ne_of_gt hfield)
    rw [Nat.succ_sub_one, Nat.succ_mul]
    omega
  rw [hrow]
  exact Nat.min_eq_left htop

theorem toNat_beq_one {n : Nat} (h : n < 2) : (n % 2 == 1).toNat = n := by
  match n with
  | 0 => rfl
  | 1 => rfl

theorem encode_decode (hexponent : 2 ≤ f.exponent) {bits : Nat} (hbits : bits < 2 * f.sign) :
    f.encode (f.decode bits) = bits := by
  have hspan := f.span_pos
  have hfields : 4 ≤ 2 ^ f.exponent := Nat.pow_le_pow_right (by decide : 0 < 2) hexponent
  have hnegative : (bits / f.sign % 2 == 1).toNat = bits / f.sign :=
    toNat_beq_one (Nat.div_lt_of_lt_mul (by rwa [Nat.mul_comm] at hbits))
  have hrest : bits / f.sign * f.sign + bits % f.sign = bits := Nat.div_add_mod' bits f.sign
  have hfraction : bits % f.sign % f.span = bits % f.span :=
    Nat.mod_mod_of_dvd bits (Nat.dvd_mul_left f.span (2 ^ f.exponent))
  have hparts : bits % f.sign / f.span * f.span + bits % f.span = bits % f.sign := by
    rw [← hfraction]
    exact Nat.div_add_mod' _ _
  have hfield : bits % f.sign / f.span < 2 ^ f.exponent := by
    apply Nat.div_lt_of_lt_mul
    rw [Nat.mul_comm]
    exact Nat.mod_lt _ (Nat.mul_pos (by omega) hspan)
  have hlow : bits % f.span < f.span := Nat.mod_lt _ hspan
  -- the three kinds of exponents
  rw [Format.decode]
  by_cases hlast : bits % f.sign / f.span = 2 ^ f.exponent - 1
  · have htop : f.top = bits % f.sign / f.span * f.span := by rw [hlast]; rfl
    rw [if_pos hlast]
    by_cases hzero : bits % f.span = 0
    · rw [if_pos hzero, Format.encode, hnegative, htop]
      omega
    · rw [if_neg hzero, Format.encode, hnegative, htop, Nat.mul_div_cancel _ (Nat.two_pow_pos _)]
      omega
  · rw [if_neg hlast]
    have hbelow : (bits % f.sign / f.span + 1) * f.span ≤ f.top :=
      Nat.mul_le_mul_right _ (by omega)
    rw [Nat.succ_mul] at hbelow
    by_cases hzero : bits % f.sign / f.span = 0
    · rw [if_pos hzero, Format.encode, hnegative, magnitude_subnormal hlow (by omega)]
      rw [hzero] at hparts
      omega
    · rw [if_neg hzero, Format.encode, hnegative,
        magnitude_normal hlow (Nat.pos_of_ne_zero hzero) (by omega), hparts]
      exact hrest

end RoundTrip

def truncated (m : Nat) (e : Int) : Nat :=
  if 0 ≤ e then m * 2 ^ e.toNat else m / 2 ^ (-e).toNat

def Datum.truncate : Datum → Option Int
  | .finite negative m e => some (if negative then -(truncated m e : Int) else truncated m e)
  | _ => none

/-- The nearest integer with at most one place more than `t`. -/
def rounded (t m : Nat) : Nat := shiftNearest m (m.log2 - t) * 2 ^ (m.log2 - t)

/-- An integer whose leading places fit. -/
def Exact (t m : Nat) : Prop := 2 ^ (m.log2 - t) ∣ m

theorem rounded_of_exact {t m : Nat} (h : Exact t m) : rounded t m = m := by
  rw [Exact] at h
  rw [rounded]
  generalize m.log2 - t = s at h ⊢
  obtain ⟨n, rfl⟩ := h
  rw [Nat.mul_comm (2 ^ s) n, shiftNearest_mul]

theorem dvd_rounded (t m : Nat) : 2 ^ (m.log2 - t) ∣ rounded t m := Nat.dvd_mul_left _ _

theorem log2_le_rounded (t : Nat) {m : Nat} (hm : m ≠ 0) : m.log2 ≤ (rounded t m).log2 := by
  have hpos : 0 < 2 ^ (m.log2 - t) := Nat.two_pow_pos _
  have hsplit : 2 ^ (m.log2 - (m.log2 - t)) * 2 ^ (m.log2 - t) = 2 ^ m.log2 := by
    rw [← Nat.pow_add, Nat.sub_add_cancel (Nat.sub_le _ _)]
  have hlead : 2 ^ (m.log2 - (m.log2 - t)) ≤ m / 2 ^ (m.log2 - t) := by
    rw [Nat.le_div_iff_mul_le hpos, hsplit]
    exact Nat.log2_self_le hm
  have hle : 2 ^ m.log2 ≤ rounded t m := by
    rw [← hsplit]
    exact Nat.mul_le_mul_right _ (Nat.le_trans hlead (shiftNearest_bounds m _).1)
  have hne : rounded t m ≠ 0 := Nat.ne_of_gt (Nat.lt_of_lt_of_le (Nat.two_pow_pos _) hle)
  exact (Nat.le_log2 hne).2 hle

theorem rounded_rounded_eq_iff (t : Nat) {m : Nat} (hm : m ≠ 0) :
    rounded t (rounded t m) = m ↔ Exact t m := by
  constructor
  · intro htwice
    have hlog := log2_le_rounded t hm
    have hdvd : 2 ^ (m.log2 - t) ∣ rounded t (rounded t m) :=
      Nat.dvd_trans (Nat.pow_dvd_pow 2 (by omega)) (dvd_rounded t (rounded t m))
    rwa [htwice] at hdvd
  · intro hexact
    rw [rounded_of_exact hexact, rounded_of_exact hexact]

theorem truncated_units (f : Format) (hlowest : f.lowest ≤ 0) (m : Nat) :
    truncated (f.units m 0) (f.place m 0) = rounded f.fraction m := by
  have hplace : f.place m 0 = max ((m.log2 : Int) - f.fraction) f.lowest := by
    rw [Format.place, Int.add_zero]
  by_cases hfits : f.place m 0 ≤ 0
  · have hshift : m.log2 - f.fraction = 0 := by omega
    have hm : shiftNearest m 0 = m := by
      have hone := shiftNearest_mul m 0
      rwa [Nat.pow_zero, Nat.mul_one] at hone
    rw [rounded, hshift, hm, Nat.pow_zero, Nat.mul_one, truncated, Format.units, if_pos hfits]
    by_cases hzero : 0 ≤ f.place m 0
    · have heq : f.place m 0 = 0 := Int.le_antisymm hfits hzero
      rw [if_pos hzero, heq, Int.sub_self, Int.toNat_zero, Nat.pow_zero, Nat.mul_one, Nat.mul_one]
    · rw [if_neg hzero, Int.zero_sub]
      exact Nat.mul_div_cancel _ (Nat.two_pow_pos _)
  · have hshift : (f.place m 0).toNat = m.log2 - f.fraction := by omega
    rw [truncated, if_pos (by omega), Format.units, if_neg hfits, Int.sub_zero, hshift]
    rfl

section Grid

variable {grid : Nat → Nat} {top x y r r' q : Nat}

/-- The entry of a rising table that is nearest to a value; of two the even one. -/
structure Nearest (grid : Nat → Nat) (top x r : Nat) : Prop where
  inside : r ≤ top
  closest : ∀ r' ≤ top, Nat.dist x (grid r) ≤ Nat.dist x (grid r')
  even : ∀ r' ≤ top, Nat.dist x (grid r) = Nat.dist x (grid r') → r' = r ∨ r % 2 = 0

theorem rising_le (hrising : ∀ q, grid q < grid (q + 1)) (h : q ≤ r) : grid q ≤ grid r :=
  (strictMono_nat_of_lt_succ hrising).monotone h

theorem Nearest.mono (hrising : ∀ q, grid q < grid (q + 1)) (h : Nearest grid top x r)
    (h' : Nearest grid top y r') (hxy : x ≤ y) : r ≤ r' := by
  by_contra hlt
  rw [Nat.not_le] at hlt
  have hgrid : grid r' < grid r := (strictMono_nat_of_lt_succ hrising) hlt
  have hleft := h.closest r' h'.inside
  have hright := h'.closest r h.inside
  have htie := h.even r' h'.inside
  have htie' := h'.even r h.inside
  -- both values lie in the middle, so both entries are even and another one is nearer
  have hnext := rising_le hrising (show r' + 1 ≤ r from hlt)
  have hnext' := hrising r'
  have hcloser := h.closest (r' + 1) (by have := h.inside; omega)
  simp only [Nat.dist] at *
  have heven : r % 2 = 0 := by
    rcases htie (by omega) with heq | heven
    · omega
    · exact heven
  have heven' : r' % 2 = 0 := by
    rcases htie' (by omega) with heq | heven
    · omega
    · exact heven
  have hgap : grid (r' + 1) < grid r :=
    (strictMono_nat_of_lt_succ hrising) (show r' + 1 < r by omega)
  omega

theorem nearest_between (hrising : ∀ q, grid q < grid (q + 1)) (hq : q < top)
    (hlow : grid q ≤ x) (hhigh : x ≤ grid (q + 1)) :
    Nearest grid top x
      (if grid (q + 1) - x < x - grid q ∨ (grid (q + 1) - x = x - grid q ∧ q % 2 = 1) then q + 1
        else q) := by
  have hgap := hrising q
  have hcases : ∀ r', grid r' ≤ grid q ∧ (r' = q ∨ grid r' < grid q) ∨
      grid (q + 1) ≤ grid r' ∧ (r' = q + 1 ∨ grid (q + 1) < grid r') := by
    intro r'
    rcases Nat.lt_trichotomy r' q with hlt | heq | hgt
    · have hless := (strictMono_nat_of_lt_succ hrising) hlt
      exact Or.inl ⟨hless.le, Or.inr hless⟩
    · rw [heq]
      exact Or.inl ⟨Nat.le_refl _, Or.inl rfl⟩
    · refine Or.inr ⟨rising_le hrising hgt, ?_⟩
      rcases Nat.eq_or_lt_of_le (show q + 1 ≤ r' from hgt) with heq | hmore
      · exact Or.inl heq.symm
      · exact Or.inr ((strictMono_nat_of_lt_succ hrising) hmore)
  split
  · rename_i hup
    refine ⟨hq, fun r' _ => ?_, fun r' _ htie => ?_⟩
    · simp only [Nat.dist]
      have hside := hcases r'
      omega
    · simp only [Nat.dist] at htie
      have hside := hcases r'
      omega
  · rename_i hdown
    refine ⟨hq.le, fun r' _ => ?_, fun r' _ htie => ?_⟩
    · simp only [Nat.dist]
      have hside := hcases r'
      omega
    · simp only [Nat.dist] at htie
      have hside := hcases r'
      omega

theorem nearest_top (hrising : ∀ q, grid q < grid (q + 1)) (h : grid top ≤ x) :
    Nearest grid top x top := by
  refine ⟨Nat.le_refl top, fun r' hr' => ?_, fun r' hr' htie => ?_⟩
  · have hle := rising_le hrising hr'
    simp only [Nat.dist]
    omega
  · left
    by_contra hne
    have hlt := (strictMono_nat_of_lt_succ hrising) (Nat.lt_of_le_of_ne hr' hne)
    simp only [Nat.dist] at htie
    omega

def Format.worth (f : Format) (r : Nat) : Nat :=
  if r < f.span then r else (r % f.span + f.span) * 2 ^ (r / f.span - 1)

theorem worth_succ (f : Format) (r : Nat) :
    f.worth (r + 1) = f.worth r + 2 ^ (r / f.span - 1) := by
  have hpos : 0 < f.span := f.span_pos
  have hparts := Nat.div_add_mod' r f.span
  by_cases hcarry : r % f.span + 1 < f.span
  · have hrow : r + 1 = (r % f.span + 1) + f.span * (r / f.span) := by
      rw [Nat.mul_comm]
      omega
    have hmod : (r + 1) % f.span = r % f.span + 1 := by
      rw [hrow, Nat.add_mul_mod_self_left, Nat.mod_eq_of_lt hcarry]
    have hdiv : (r + 1) / f.span = r / f.span := by
      rw [hrow, Nat.add_mul_div_left _ _ hpos, Nat.div_eq_of_lt hcarry, Nat.zero_add]
    rw [Format.worth, Format.worth, hmod, hdiv]
    by_cases hsmall : r < f.span
    · have hzero : r / f.span = 0 := Nat.div_eq_of_lt hsmall
      have hsmall' : r + 1 < f.span := by
        rw [Nat.mod_eq_of_lt hsmall] at hcarry
        exact hcarry
      rw [if_pos hsmall, if_pos hsmall', hzero]
      rfl
    · rw [if_neg hsmall, if_neg (by omega), ← Nat.succ_mul]
      congr 1
      omega
  · have hlast : r % f.span + 1 = f.span := by
      have hlt := Nat.mod_lt r hpos
      omega
    have hrow : r + 1 = f.span * (r / f.span + 1) := by
      rw [Nat.mul_add, Nat.mul_one, Nat.mul_comm]
      omega
    have hmod : (r + 1) % f.span = 0 := by rw [hrow, Nat.mul_mod_right]
    have hdiv : (r + 1) / f.span = r / f.span + 1 := by rw [hrow, Nat.mul_div_cancel_left _ hpos]
    have hlarge : ¬ r + 1 < f.span := by
      rw [hrow, Nat.not_lt]
      exact Nat.le_mul_of_pos_right _ (Nat.succ_pos _)
    rw [Format.worth, if_neg hlarge, hmod, hdiv, Nat.zero_add, Nat.add_sub_cancel, Format.worth]
    by_cases hsmall : r < f.span
    · have hzero : r / f.span = 0 := Nat.div_eq_of_lt hsmall
      rw [if_pos hsmall, hzero, Nat.pow_zero, Nat.mul_one]
      rw [Nat.mod_eq_of_lt hsmall] at hlast
      exact hlast.symm
    · have hone : r / f.span = (r / f.span - 1) + 1 := by
        have hquot : 1 ≤ r / f.span := (Nat.one_le_div_iff hpos).2 (Nat.not_lt.1 hsmall)
        omega
      rw [if_neg hsmall, ← Nat.succ_mul, hone, Nat.add_sub_cancel, Nat.pow_succ]
      have hdouble : r % f.span + f.span + 1 = f.span * 2 := by omega
      rw [Nat.succ_eq_add_one, hdouble, Nat.mul_assoc, Nat.mul_comm 2]

theorem worth_lt (f : Format) (r : Nat) : f.worth r < f.worth (r + 1) := by
  rw [worth_succ]
  exact Nat.lt_add_of_pos_right (Nat.two_pow_pos _)

theorem worth_add (f : Format) (r k : Nat) (hk : r % f.span + k < f.span) :
    f.worth (r + k) = f.worth r + k * 2 ^ (r / f.span - 1) := by
  induction k with
  | zero =>
    rw [Nat.zero_mul]
    rfl
  | succ k ih =>
    have hpos := f.span_pos
    have hdiv : (r + k) / f.span = r / f.span := by
      have hrow : r + k = (r % f.span + k) + f.span * (r / f.span) := by
        have hparts := Nat.mod_add_div r f.span
        omega
      rw [hrow, Nat.add_mul_div_left _ _ hpos, Nat.div_eq_of_lt (by omega), Nat.zero_add]
    rw [← Nat.add_assoc, worth_succ, ih (by omega), hdiv, Nat.succ_mul, Nat.add_assoc]

theorem worth_mul {f g : Format} {k : Nat} (hspan : g.span = f.span * 2 ^ k) (q : Nat) :
    g.worth (q * 2 ^ k) = f.worth q * 2 ^ k := by
  have hpow : 0 < 2 ^ k := Nat.two_pow_pos k
  rw [Format.worth, Format.worth, hspan, Nat.mul_mod_mul_right, Nat.mul_div_mul_right _ _ hpow]
  by_cases hsmall : q < f.span
  · rw [if_pos hsmall, if_pos (Nat.mul_lt_mul_of_pos_right hsmall hpow)]
  · have hlarge : ¬ q * 2 ^ k < f.span * 2 ^ k := by
      rw [Nat.mul_lt_mul_right hpow]
      exact hsmall
    rw [if_neg hsmall, if_neg hlarge, ← Nat.add_mul, Nat.mul_right_comm]

end Grid

end XPerl.Framework.Rounding
