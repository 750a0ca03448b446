import XPerl.TensorXs.RoundTrip

/-! The 16 bit formats: where storing rounds to the nearest value, and where loading is exact. -/

namespace XPerl.TensorXs

open XPerl.Framework.Rounding

/-- The formats of 16 bits. -/
def half : Format := ⟨10, 5, -24⟩

def brain : Format := ⟨7, 8, -133⟩

variable {f : Format} {bits r s e m : Nat}

def fine (f : Format) (q : Nat) : Nat := f.worth q * 2 ^ (f.lowest - single.lowest).toNat

theorem fine_lt (f : Format) (q : Nat) : fine f q < fine f (q + 1) :=
  Nat.mul_lt_mul_of_pos_right (worth_lt f q) (Nat.two_pow_pos _)

/-- What the 16 bits of a float must be: its sign with the nearest magnitude, an infinity for an
infinity and a NaN for a NaN. -/
def Kept (f : Format) (bits r : Nat) : Prop :=
  r < 2 * f.sign ∧
    if single.top < bits % single.sign then f.top < r % f.sign
    else r / f.sign = bits / single.sign ∧
      if bits % single.sign = single.top then r % f.sign = f.top
      else Nearest (fine f) f.top (single.worth (bits % single.sign)) (r % f.sign)

/-- What a half must be loaded as. -/
def Loaded (bits : Nat) (value : Datum) : Prop :=
  if half.top < bits % half.sign then ∃ negative payload, value = .nan negative payload
  else if bits % half.sign = half.top then value = .infinite (bits / half.sign == 1)
  else ∃ m e, value = .finite (bits / half.sign == 1) m e ∧ single.lowest ≤ e ∧
    m * 2 ^ (e - single.lowest).toNat = fine half (bits % half.sign)

/-- `tensor_float_to_f16` of the float with these bits. -/
def HalfStored (bits : Nat) : Prop :=
  ∃ r, tensorFloatToF16 (nvOfFloat bits) = .ok r ∧ Kept half bits r

def BrainStored (bits : Nat) : Prop := Kept brain bits (tensorFloatToBf16 (nvOfFloat bits))

/-- What is loaded is stored as it was, every NaN as a NaN. -/
def Back (f : Format) (dtype : Dtype) (bits : Nat) : Prop :=
  ∃ r, trip dtype bits = .ok r ∧
    if f.top < bits % f.sign then f.top < r % f.sign else r = bits

/-- Values in their order. -/
def ordered (f : Format) (bits : Nat) : Int :=
  if bits / f.sign = 1 then -(fine f (bits % f.sign) : Int) else fine f (bits % f.sign)

theorem exists_floatBits (h : bits < 2 ^ 32) :
    ∃ s e m, s < 2 ∧ e < 2 ^ 8 ∧ m < 2 ^ 23 ∧ bits = floatBits s e m :=
  ⟨bits / 2 ^ 31, bits / 2 ^ 23 % 2 ^ 8, bits % 2 ^ 23, by omega, by omega, by omega,
    by rw [floatBits]; omega⟩

theorem exists_halfBits (h : bits < 2 ^ 16) :
    ∃ s e m, s < 2 ∧ e < 2 ^ 5 ∧ m < 2 ^ 10 ∧ bits = halfBits s e m :=
  ⟨bits / 2 ^ 15, bits / 2 ^ 10 % 2 ^ 5, bits % 2 ^ 10, by omega, by omega, by omega,
    by rw [halfBits]; omega⟩

theorem single_sign : single.sign = 2 ^ 31 := rfl

theorem single_top : single.top = 255 * 2 ^ 23 := rfl

theorem half_sign : half.sign = 2 ^ 15 := rfl

theorem half_top : half.top = 31 * 2 ^ 10 := rfl

theorem brain_sign : brain.sign = 2 ^ 15 := rfl

theorem brain_top : brain.top = 255 * 2 ^ 7 := rfl

theorem worth_single (he : 0 < e) (hm : m < 2 ^ 23) :
    single.worth (e * 2 ^ 23 + m) = (m + 2 ^ 23) * 2 ^ (e - 1) := by
  have hspan : single.span = 2 ^ 23 := rfl
  have hmod : (e * 2 ^ 23 + m) % 2 ^ 23 = m := by omega
  have hdiv : (e * 2 ^ 23 + m) / 2 ^ 23 = e := by omega
  rw [Format.worth, hspan, if_neg (by omega), hmod, hdiv]

theorem worth_half (he : 0 < e) (hm : m < 2 ^ 10) :
    fine half (e * 2 ^ 10 + m) = (m + 2 ^ 10) * 2 ^ (e + 124) := by
  have hspan : half.span = 2 ^ 10 := rfl
  have hmod : (e * 2 ^ 10 + m) % 2 ^ 10 = m := by omega
  have hdiv : (e * 2 ^ 10 + m) / 2 ^ 10 = e := by omega
  have hscale : (half.lowest - single.lowest).toNat = 125 := rfl
  rw [fine, Format.worth, hspan, if_neg (by omega), hmod, hdiv, hscale, Nat.mul_assoc,
    ← Nat.pow_add]
  congr 2
  omega

theorem nearest_cut {grid : Nat → Nat} {top q lost gap unit : Nat}
    (hrising : ∀ q, grid q < grid (q + 1)) (hq : q < top)
    (hnext : grid (q + 1) = grid q + gap * unit)
    (hlost : lost < gap) (hunit : 0 < unit) :
    Nearest grid top (grid q + lost * unit)
      (if gap < 2 * lost ∨ (gap = 2 * lost ∧ q % 2 = 1) then q + 1 else q) := by
  have hle : lost * unit ≤ gap * unit := Nat.mul_le_mul_right unit hlost.le
  have hbetween := nearest_between hrising hq (Nat.le_add_right _ (lost * unit))
    (show grid q + lost * unit ≤ grid (q + 1) by omega)
  have hup : grid (q + 1) - (grid q + lost * unit) = (gap - lost) * unit := by
    rw [hnext, Nat.sub_mul]
    omega
  have hdown : grid q + lost * unit - grid q = lost * unit := Nat.add_sub_cancel_left _ _
  have hcond : ((gap - lost) * unit < lost * unit ∨ ((gap - lost) * unit = lost * unit ∧
      q % 2 = 1)) ↔ (gap < 2 * lost ∨ (gap = 2 * lost ∧ q % 2 = 1)) := by
    rw [Nat.mul_lt_mul_right hunit, Nat.mul_left_inj (Nat.ne_of_gt hunit)]
    omega
  rwa [hup, hdown, if_congr hcond rfl rfl] at hbetween

theorem f16OfFloatBits_range (hs : s < 2) (he : 113 ≤ e) (he' : e ≤ 142) (hm : m < 2 ^ 23) :
    f16OfFloatBits (floatBits s e m) = .ok (s * 2 ^ 15 +
      if 2 ^ 13 < 2 * (m % 2 ^ 13) ∨
          (2 ^ 13 = 2 * (m % 2 ^ 13) ∧ ((e - 112) * 2 ^ 10 + m / 2 ^ 13) % 2 = 1) then
        (e - 112) * 2 ^ 10 + m / 2 ^ 13 + 1
      else (e - 112) * 2 ^ 10 + m / 2 ^ 13) := by
  obtain ⟨hsign, hexp, hman⟩ := floatBits_fields hs (by omega : e < 2 ^ 8) hm
  have hcut : m >>> 13 = m / 2 ^ 13 := Nat.shiftRight_eq_div_pow m 13
  have hlost : m &&& 0x1fff = m % 2 ^ 13 := and_mask m 13
  have hodd : ((e - 112) * 2 ^ 10 + m / 2 ^ 13) % 2 = m / 2 ^ 13 % 2 := by omega
  have hfield : ((e : Int) - 127 + 15).toNat = e - 112 := by omega
  have hcarry : ((e : Int) - 127 + 1 + 15).toNat = e - 111 := by omega
  rw [f16OfFloatBits]
  dsimp only
  rw [hsign, hexp, hman, hcut, hlost, if_neg (by omega), if_neg (by omega), if_neg (by omega),
    if_neg (by omega), hfield, hcarry, hodd, Nat.and_one_is_mod]
  have hround : (0x1000 < m % 2 ^ 13 ∨ m % 2 ^ 13 = 0x1000 ∧ m / 2 ^ 13 % 2 = 1) ↔
      (2 ^ 13 < 2 * (m % 2 ^ 13) ∨ 2 ^ 13 = 2 * (m % 2 ^ 13) ∧ m / 2 ^ 13 % 2 = 1) := by omega
  rw [if_congr hround rfl rfl]
  split
  · by_cases hfull : m / 2 ^ 13 + 1 = 0x400
    · rw [if_pos hfull]
      by_cases hover : (e : Int) - 127 + 1 > 15
      · have hinf : s * 2 ^ 15 ||| 0x7c00 = s * 2 ^ 15 + 0x7c00 := or_eq_add 15 (by decide)
        rw [if_pos hover, hinf]
        exact congrArg Except.ok (by omega)
      · rw [if_neg hover, halfBits_or (by omega) (by decide), halfBits]
        exact congrArg Except.ok (by omega)
    · rw [if_neg hfull, halfBits_or (by omega) (by omega), halfBits]
      exact congrArg Except.ok (by omega)
  · rw [halfBits_or (by omega) (by omega), halfBits]
    exact congrArg Except.ok (by omega)

theorem nearest_range (he : 113 ≤ e) (he' : e ≤ 142) (hm : m < 2 ^ 23) :
    Nearest (fine half) half.top (single.worth (e * 2 ^ 23 + m))
      (if 2 ^ 13 < 2 * (m % 2 ^ 13) ∨
          (2 ^ 13 = 2 * (m % 2 ^ 13) ∧ ((e - 112) * 2 ^ 10 + m / 2 ^ 13) % 2 = 1) then
        (e - 112) * 2 ^ 10 + m / 2 ^ 13 + 1
      else (e - 112) * 2 ^ 10 + m / 2 ^ 13) := by
  have hpow : 2 ^ (e - 112 + 124) = 2 ^ 13 * 2 ^ (e - 1) := by
    rw [← Nat.pow_add]
    congr 1
    omega
  have hgrid : fine half ((e - 112) * 2 ^ 10 + m / 2 ^ 13) =
      (m / 2 ^ 13 + 2 ^ 10) * (2 ^ 13 * 2 ^ (e - 1)) := by
    rw [worth_half (by omega) (by omega), hpow]
  have hvalue : single.worth (e * 2 ^ 23 + m) =
      fine half ((e - 112) * 2 ^ 10 + m / 2 ^ 13) + m % 2 ^ 13 * 2 ^ (e - 1) := by
    have hparts : m + 2 ^ 23 = (m / 2 ^ 13 + 2 ^ 10) * 2 ^ 13 + m % 2 ^ 13 := by omega
    rw [worth_single (by omega) hm, hgrid, hparts, Nat.add_mul, Nat.mul_assoc]
  have hnext : fine half ((e - 112) * 2 ^ 10 + m / 2 ^ 13 + 1) =
      fine half ((e - 112) * 2 ^ 10 + m / 2 ^ 13) + 2 ^ 13 * 2 ^ (e - 1) := by
    have hdiv : ((e - 112) * 2 ^ 10 + m / 2 ^ 13) / half.span = e - 112 := by
      change _ / 2 ^ 10 = _
      omega
    have hscale : (half.lowest - single.lowest).toNat = 125 := rfl
    have hexponent : e - 112 - 1 + 125 = 13 + (e - 1) := by omega
    rw [fine, worth_succ, Nat.add_mul, hdiv, hscale, ← Nat.pow_add, hexponent, Nat.pow_add]
    rfl
  rw [hvalue]
  exact nearest_cut (fine_lt half) (by rw [half_top]; omega) hnext (Nat.mod_lt _ (by decide))
    (Nat.two_pow_pos _)

theorem f16OfFloatBits_below (hs : s < 2) (he : e < 113) (hm : m < 2 ^ 23) :
    f16OfFloatBits (floatBits s e m) =
      if 103 ≤ e ∧ e ≤ 107 then .error .undefined else .ok (s * 2 ^ 15) := by
  obtain ⟨hsign, hexp, hman⟩ := floatBits_fields hs (by omega : e < 2 ^ 8) hm
  rw [f16OfFloatBits]
  dsimp only
  rw [hsign, hexp, hman, if_neg (by omega), if_neg (by omega)]
  by_cases hlow : (e : Int) - 127 < -24
  · rw [if_pos hlow, if_neg (show ¬ (103 ≤ e ∧ e ≤ 107) by omega)]
    rfl
  rw [if_neg hlow, if_pos (show (e : Int) - 127 < -14 by omega)]
  have hshift : (-((e : Int) - 127) - 1).toNat = 126 - e := by omega
  rw [hshift]
  by_cases hfar : 126 - e + 13 ≥ 32
  · rw [if_pos hfar, if_pos (show 103 ≤ e ∧ e ≤ 107 by omega)]
    rfl
  rw [if_neg hfar, if_neg (show ¬ (103 ≤ e ∧ e ≤ 107) by omega)]
  have hsignificand : m ||| 0x800000 = m + 2 ^ 23 := by
    have hor : 1 * 2 ^ 23 ||| m = 1 * 2 ^ 23 + m := or_eq_add 23 hm
    rw [Nat.or_comm, Nat.add_comm]
    exact hor
  have hsmall : m + 2 ^ 23 < 2 ^ (126 - e + 12) :=
    Nat.lt_of_lt_of_le (show m + 2 ^ 23 < 2 ^ 24 by omega)
      (Nat.pow_le_pow_right (by decide) (by omega))
  have hsmall' : m + 2 ^ 23 < 2 ^ (126 - e + 13) :=
    Nat.lt_of_lt_of_le hsmall (Nat.pow_le_pow_right (by decide) (by omega))
  rw [hsignificand, Nat.shiftRight_eq_div_pow, Nat.div_eq_of_lt hsmall', Nat.shiftLeft_eq,
    Nat.shiftLeft_eq, Nat.one_mul, Nat.one_mul, and_mask, Nat.mod_eq_of_lt hsmall',
    if_neg (by omega), Nat.or_zero]
  rfl

theorem f16OfFloatBits_above (hs : s < 2) (he : 143 ≤ e) (he' : e < 255) (hm : m < 2 ^ 23) :
    f16OfFloatBits (floatBits s e m) = .ok (s * 2 ^ 15 + half.top) := by
  obtain ⟨hsign, hexp, hman⟩ := floatBits_fields hs (by omega : e < 2 ^ 8) hm
  have hinf : s * 2 ^ 15 ||| 0x7c00 = s * 2 ^ 15 + 0x7c00 := or_eq_add 15 (by decide)
  rw [f16OfFloatBits]
  dsimp only
  rw [hsign, hexp, hman, if_neg (by omega), if_pos (by omega), hinf]
  rfl

theorem floatBits_parts (he : e < 2 ^ 8) (hm : m < 2 ^ 23) :
    floatBits s e m % single.sign = e * 2 ^ 23 + m ∧ floatBits s e m / single.sign = s := by
  rw [single_sign, floatBits]
  omega

theorem stored_iff (htop : f.top < f.sign) (hs : s < 2) (he : e < 255) (hm : m < 2 ^ 23) :
    Kept f (floatBits s e m) r ↔ ∃ q, r = s * f.sign + q ∧
      Nearest (fine f) f.top (single.worth (e * 2 ^ 23 + m)) q := by
  obtain ⟨hmagnitude, hsign⟩ := floatBits_parts (show e < 2 ^ 8 by omega) hm
  have hpos : 0 < f.sign := Nat.lt_of_le_of_lt (Nat.zero_le _) htop
  have hlow : ¬ single.top < e * 2 ^ 23 + m := by
    rw [single_top]
    omega
  have hne : ¬ e * 2 ^ 23 + m = single.top := by
    rw [single_top]
    omega
  rw [Kept, hmagnitude, hsign, if_neg hlow, if_neg hne]
  constructor
  · intro h
    refine ⟨r % f.sign, ?_, h.2.2⟩
    have hparts := Nat.div_add_mod' r f.sign
    rw [h.2.1] at hparts
    exact hparts.symm
  · intro h
    obtain ⟨q, rfl, hq⟩ := h
    have hlt : q < f.sign := Nat.lt_of_le_of_lt hq.inside htop
    have hmod : (s * f.sign + q) % f.sign = q := by
      rw [Nat.mul_comm, Nat.mul_add_mod, Nat.mod_eq_of_lt hlt]
    have hdiv : (s * f.sign + q) / f.sign = s := by
      rw [Nat.mul_comm, Nat.mul_add_div hpos, Nat.div_eq_of_lt hlt, Nat.add_zero]
    rw [hmod, hdiv]
    refine ⟨?_, rfl, hq⟩
    have hle : s * f.sign ≤ 1 * f.sign := Nat.mul_le_mul_right _ (by omega)
    omega

/-- The magnitudes that are stored as halves rightly: not those between the half of the least half
and the least normal half. -/
def HalfRange (bits : Nat) : Prop :=
  bits % 2 ^ 31 ≤ 102 * 2 ^ 23 ∨ 113 * 2 ^ 23 ≤ bits % 2 ^ 31

theorem nearest_zero_iff {x : Nat} : Nearest (fine half) half.top x 0 ↔ x ≤ 2 ^ 124 := by
  have hzero : fine half 0 = 0 := rfl
  have hone : fine half 1 = 2 ^ 125 := by decide
  have htop : 1 ≤ half.top := by decide
  constructor
  · intro h
    have hcloser := h.closest 1 htop
    rw [hzero, hone] at hcloser
    simp only [Nat.dist] at hcloser
    omega
  · intro hx
    have hbetween := nearest_between (fine_lt half) (show 0 < half.top from htop)
      (show fine half 0 ≤ x by rw [hzero]; exact Nat.zero_le x)
      (show x ≤ fine half (0 + 1) by rw [Nat.zero_add, hone]; omega)
    rw [Nat.zero_add, hone, hzero] at hbetween
    rwa [if_neg (by omega)] at hbetween

theorem worth_le_iff (e m : Nat) :
    single.worth (e * 2 ^ 23 + m) ≤ 2 ^ 124 ↔ e * 2 ^ 23 + m ≤ 102 * 2 ^ 23 := by
  have hlimit : single.worth (102 * 2 ^ 23) = 2 ^ 124 := by
    have hworth := worth_single (show 0 < 102 by decide) (show 0 < 2 ^ 23 by decide)
    rw [Nat.add_zero] at hworth
    rw [hworth]
    rfl
  constructor
  · intro hle
    by_contra hlarge
    have hlt := (strictMono_nat_of_lt_succ (worth_lt single)) (Nat.not_le.1 hlarge)
    omega
  · intro hle
    rw [← hlimit]
    exact rising_le (worth_lt single) hle

theorem halfStored_finite (hs : s < 2) (he : e < 255) (hm : m < 2 ^ 23) :
    HalfStored (floatBits s e m) ↔ HalfRange (floatBits s e m) := by
  have hhalf : half.top < half.sign := by decide
  have hrange : HalfRange (floatBits s e m) ↔
      e * 2 ^ 23 + m ≤ 102 * 2 ^ 23 ∨ 113 * 2 ^ 23 ≤ e * 2 ^ 23 + m := by
    have hmod : floatBits s e m % 2 ^ 31 = e * 2 ^ 23 + m :=
      (floatBits_parts (show e < 2 ^ 8 by omega) hm).1
    rw [HalfRange, hmod]
  rw [hrange, HalfStored, tensorFloatToF16_floatBits hs he hm]
  simp only [stored_iff hhalf hs he hm]
  by_cases hbelow : e < 113
  · rw [f16OfFloatBits_below hs hbelow hm]
    by_cases hfar : 103 ≤ e ∧ e ≤ 107
    · rw [if_pos hfar]
      constructor
      · intro h
        obtain ⟨r, hr, -⟩ := h
        cases hr
      · omega
    · rw [if_neg hfar]
      constructor
      · intro h
        obtain ⟨r, hr, q, hq, hnearest⟩ := h
        cases hr
        rw [half_sign] at hq
        obtain rfl : q = 0 := by omega
        exact Or.inl ((worth_le_iff e m).1 (nearest_zero_iff.1 hnearest))
      · intro h
        refine ⟨_, rfl, 0, ?_, nearest_zero_iff.2 ((worth_le_iff e m).2 (by omega))⟩
        rw [half_sign, Nat.add_zero]
  · refine ⟨fun _ => Or.inr (by omega), fun _ => ?_⟩
    by_cases habove : 143 ≤ e
    · rw [f16OfFloatBits_above hs habove he hm]
      refine ⟨_, rfl, half.top, rfl, nearest_top (fine_lt half) ?_⟩
      have htop : fine half half.top = 2 ^ 23 * 2 ^ 142 := by decide
      rw [htop, worth_single (by omega) hm]
      exact Nat.mul_le_mul (by omega) (Nat.pow_le_pow_right (by decide) (by omega))
    · rw [f16OfFloatBits_range hs (by omega) (by omega) hm]
      exact ⟨_, rfl, _, rfl, nearest_range (by omega) (by omega) hm⟩

theorem halfStored_special (hs : s < 2) (hm : m < 2 ^ 23) : HalfStored (floatBits s 255 m) := by
  obtain ⟨hmagnitude, hsign⟩ := floatBits_parts (by decide : 255 < 2 ^ 8) hm
  have hbits : floatBits s 255 m < 2 ^ 32 := by
    rw [floatBits]
    omega
  refine ⟨halfBits s 31 (if m = 0 then 0 else 512), ?_, ?_⟩
  · rw [tensorFloatToF16, floatOfNv_nvOfFloat hbits]
    by_cases hsignal : Signalling (floatBits s 255 m)
    · have hparts := (signalling_floatBits (by decide) hm).1 hsignal
      have hquiet : floatBits s 255 m + 2 ^ 22 = floatBits s 255 (m + 2 ^ 22) :=
        Nat.add_assoc _ _ _
      rw [if_pos hsignal, hquiet, f16OfFloatBits_special hs (by omega), if_neg (by omega),
        if_neg (by omega)]
    · rw [if_neg hsignal, f16OfFloatBits_special hs hm]
  · rw [Kept, hmagnitude, hsign, single_top, half_top, half_sign, halfBits]
    by_cases hzero : m = 0
    · rw [if_pos hzero, if_neg (by omega), if_pos (by omega)]
      omega
    · rw [if_neg hzero, if_pos (by omega)]
      omega

theorem halfStored_iff (h : bits < 2 ^ 32) : HalfStored bits ↔ HalfRange bits := by
  obtain ⟨s, e, m, hs, he, hm, rfl⟩ := exists_floatBits h
  by_cases hspecial : e = 255
  · subst hspecial
    refine iff_of_true (halfStored_special hs hm) (Or.inr ?_)
    rw [floatBits]
    omega
  · exact halfStored_finite hs (by omega) hm

/-- The NaNs whose leading places do not overflow into the sign. -/
def BrainRange (bits : Nat) : Prop :=
  bits % 2 ^ 31 ≤ 255 * 2 ^ 23 ∨ bits % 2 ^ 22 < 0x3f8000

theorem round_middle {hi lo : Nat} (hlo : lo < 2 ^ 16) :
    ((hi * 2 ^ 16 + lo) + (0x7fff + hi % 2)) / 2 ^ 16 =
      if 2 ^ 16 < 2 * lo ∨ (2 ^ 16 = 2 * lo ∧ hi % 2 = 1) then hi + 1 else hi := by
  by_cases hup : 2 ^ 16 < 2 * lo ∨ (2 ^ 16 = 2 * lo ∧ hi % 2 = 1)
  · rw [if_pos hup]
    omega
  · rw [if_neg hup]
    omega

theorem tensorFloatToBf16_round {hi lo : Nat} (hlo : lo < 2 ^ 16) :
    (((hi * 2 ^ 16 + lo) + (0x7fff + (((hi * 2 ^ 16 + lo) >>> 16) &&& 1))) % 0x100000000) >>> 16 =
      (if 2 ^ 16 < 2 * lo ∨ (2 ^ 16 = 2 * lo ∧ hi % 2 = 1) then hi + 1 else hi) % 2 ^ 16 := by
  have hcut : (hi * 2 ^ 16 + lo) / 2 ^ 16 = hi := by omega
  have hword : 0x100000000 = 2 ^ 16 * 2 ^ 16 := rfl
  rw [Nat.shiftRight_eq_div_pow, Nat.shiftRight_eq_div_pow, hcut, Nat.and_one_is_mod, hword,
    Nat.mod_mul_right_div_self, round_middle hlo]

theorem nearest_brain (he : e < 255) (hm : m < 2 ^ 23) :
    Nearest (fine brain) brain.top (single.worth (e * 2 ^ 23 + m))
      (if 2 ^ 16 < 2 * (m % 2 ^ 16) ∨
          (2 ^ 16 = 2 * (m % 2 ^ 16) ∧ (e * 2 ^ 7 + m / 2 ^ 16) % 2 = 1) then
        e * 2 ^ 7 + m / 2 ^ 16 + 1
      else e * 2 ^ 7 + m / 2 ^ 16) := by
  have hspan : single.span = 2 ^ 23 := rfl
  have hgrid (q : Nat) : fine brain q = single.worth (q * 2 ^ 16) :=
    (worth_mul (show single.span = brain.span * 2 ^ 16 from rfl) q).symm
  have hrow : e * 2 ^ 23 + m = (e * 2 ^ 7 + m / 2 ^ 16) * 2 ^ 16 + m % 2 ^ 16 := by omega
  have hplaces : (e * 2 ^ 7 + m / 2 ^ 16) * 2 ^ 16 / single.span = e := by
    rw [hspan]
    omega
  have hvalue : single.worth (e * 2 ^ 23 + m) =
      fine brain (e * 2 ^ 7 + m / 2 ^ 16) + m % 2 ^ 16 * 2 ^ (e - 1) := by
    rw [hrow, worth_add single _ _ (by rw [hspan]; omega), hgrid, hplaces]
  have hnext : fine brain (e * 2 ^ 7 + m / 2 ^ 16 + 1) =
      fine brain (e * 2 ^ 7 + m / 2 ^ 16) + 2 ^ 16 * 2 ^ (e - 1) := by
    have hscale : (brain.lowest - single.lowest).toNat = 16 := rfl
    have hdiv : (e * 2 ^ 7 + m / 2 ^ 16) / brain.span = e := by
      change _ / 2 ^ 7 = e
      omega
    rw [fine, worth_succ, Nat.add_mul, hdiv, hscale, Nat.mul_comm (2 ^ (e - 1))]
    rfl
  rw [hvalue]
  exact nearest_cut (fine_lt brain) (by rw [brain_top]; omega) hnext (Nat.mod_lt _ (by decide))
    (Nat.two_pow_pos _)

theorem brainStored_iff (h : bits < 2 ^ 32) : BrainStored bits ↔ BrainRange bits := by
  rw [BrainStored, tensorFloatToBf16, floatOfNv_nvOfFloat h]
  obtain ⟨s, e, m, hs, he, hm, rfl⟩ := exists_floatBits h
  obtain ⟨hmagnitude, hsign⟩ := floatBits_parts he hm
  have hrow : floatBits s e m = (s * 2 ^ 15 + (e * 2 ^ 7 + m / 2 ^ 16)) * 2 ^ 16 + m % 2 ^ 16 := by
    rw [floatBits]
    omega
  have hlow : m % 2 ^ 16 < 2 ^ 16 := Nat.mod_lt m (by decide)
  by_cases hspecial : e = 255
  · subst hspecial
    have hquiet : floatBits s 255 m + 2 ^ 22 =
        (s * 2 ^ 15 + (255 * 2 ^ 7 + m / 2 ^ 16) + 2 ^ 6) * 2 ^ 16 + m % 2 ^ 16 := by
      rw [floatBits]
      omega
    have hlimit : BrainRange (floatBits s 255 m) ↔ m = 0 ∨ m % 2 ^ 22 < 0x3f8000 := by
      rw [BrainRange, floatBits]
      omega
    rw [hlimit, Kept, hmagnitude, hsign, single_top, brain_top, brain_sign,
      if_congr (signalling_floatBits (by decide) hm) rfl rfl]
    by_cases hsignal : 255 = 255 ∧ 0 < m ∧ m < 2 ^ 22
    · rw [if_pos hsignal, hquiet, tensorFloatToBf16_round hlow,
        if_pos (by omega : 255 * 2 ^ 23 < 255 * 2 ^ 23 + m)]
      split
      · omega
      · omega
    · rw [if_neg hsignal, hrow, tensorFloatToBf16_round hlow]
      by_cases hzero : m = 0
      · subst hzero
        rw [if_neg (by omega), if_neg (by omega), if_pos (by omega)]
        omega
      · rw [if_pos (by omega : 255 * 2 ^ 23 < 255 * 2 ^ 23 + m)]
        split
        · omega
        · omega
  · have hfinite : ¬ Signalling (floatBits s e m) := by
      rw [signalling_floatBits he hm]
      omega
    refine iff_of_true ?_ (Or.inl ?_)
    · rw [if_neg hfinite]
      have hodd : (s * 2 ^ 15 + (e * 2 ^ 7 + m / 2 ^ 16)) % 2 = (e * 2 ^ 7 + m / 2 ^ 16) % 2 := by
        omega
      have hnearest := nearest_brain (show e < 255 by omega) hm
      rw [stored_iff (by decide) hs (by omega) hm, hrow, tensorFloatToBf16_round hlow, hodd]
      refine ⟨_, ?_, hnearest⟩
      have hsmall : e * 2 ^ 7 + m / 2 ^ 16 + 1 < 2 ^ 15 := by omega
      clear hnearest hodd hrow hmagnitude hsign
      rw [brain_sign]
      by_cases hup : 2 ^ 16 < 2 * (m % 2 ^ 16) ∨
          (2 ^ 16 = 2 * (m % 2 ^ 16) ∧ (e * 2 ^ 7 + m / 2 ^ 16) % 2 = 1)
      · rw [if_pos hup, if_pos hup]
        omega
      · rw [if_neg hup, if_neg hup]
        omega
    · rw [floatBits]
      omega

theorem decode_floatBits (hs : s < 2) (he : 0 < e) (he' : e < 255) (hm : m < 2 ^ 23) :
    single.decode (floatBits s e m) = .finite (s == 1) (m + 2 ^ 23) (-149 + e - 1) := by
  obtain ⟨hmagnitude, hsign⟩ := floatBits_parts (show e < 2 ^ 8 by omega) hm
  have hspan : single.span = 2 ^ 23 := rfl
  have hexponent : 2 ^ single.exponent - 1 = 255 := rfl
  have hfield : (e * 2 ^ 23 + m) / 2 ^ 23 = e := by omega
  have hfraction : floatBits s e m % 2 ^ 23 = m := by
    rw [floatBits]
    omega
  have hbit : s % 2 = s := Nat.mod_eq_of_lt hs
  rw [Format.decode, hmagnitude, hsign, hspan, hexponent, hfield, hfraction, hbit]
  rw [if_neg (by omega), if_neg (by omega)]
  rfl

theorem decode_special (hs : s < 2) (hm : m < 2 ^ 23) :
    single.decode (floatBits s 255 m) =
      if m = 0 then .infinite (s == 1) else .nan (s == 1) (m * 2 ^ 29) := by
  obtain ⟨hmagnitude, hsign⟩ := floatBits_parts (show 255 < 2 ^ 8 by decide) hm
  have hspan : single.span = 2 ^ 23 := rfl
  have hexponent : 2 ^ single.exponent - 1 = 255 := rfl
  have hfield : (255 * 2 ^ 23 + m) / 2 ^ 23 = 255 := by omega
  have hfraction : floatBits s 255 m % 2 ^ 23 = m := by
    rw [floatBits]
    omega
  have hbit : s % 2 = s := Nat.mod_eq_of_lt hs
  rw [Format.decode, hmagnitude, hsign, hspan, hexponent, hfield, hfraction, hbit]
  rw [if_pos rfl]
  rfl

theorem decode_zero (hs : s < 2) :
    quiet (single.decode (floatBits s 0 0)) = .finite (s == 1) 0 (-149) := by
  match s with
  | 0 => rfl
  | 1 => rfl

theorem halfBits_parts (he : e < 2 ^ 5) (hm : m < 2 ^ 10) :
    halfBits s e m % half.sign = e * 2 ^ 10 + m ∧ halfBits s e m / half.sign = s := by
  rw [half_sign, halfBits]
  omega

/-- The halves below the normal ones, but zero. -/
def Subnormal (bits : Nat) : Prop := 0 < bits % 2 ^ 15 ∧ bits % 2 ^ 15 < 2 ^ 10

theorem subnormal_halfBits (he : e < 2 ^ 5) (hm : m < 2 ^ 10) :
    Subnormal (halfBits s e m) ↔ e = 0 ∧ 0 < m := by
  have hmod : halfBits s e m % 2 ^ 15 = e * 2 ^ 10 + m := (halfBits_parts he hm).1
  rw [Subnormal, hmod]
  omega

theorem loaded_iff (h : bits < 2 ^ 16) :
    Loaded bits (tensorF16ToFloat bits) ↔ ¬ Subnormal bits := by
  obtain ⟨s, e, m, hs, he, hm, rfl⟩ := exists_halfBits h
  obtain ⟨hmagnitude, hsign⟩ := halfBits_parts (s := s) he hm
  rw [Loaded, hmagnitude, hsign, half_top, subnormal_halfBits he hm, tensorF16ToFloat, nvOfFloat]
  by_cases hspecial : e = 31
  · subst hspecial
    rw [f16FloatBits_special hs hm, decode_special hs (by omega)]
    by_cases hzero : m = 0
    · subst hzero
      rw [if_neg (by omega), if_pos (by omega), if_pos (Nat.zero_mul _)]
      exact iff_of_true rfl (by omega)
    · rw [if_pos (by omega), if_neg (by omega)]
      exact iff_of_true ⟨_, _, rfl⟩ (by omega)
  rw [if_neg (by omega), if_neg (by omega)]
  by_cases hfield : e = 0
  · subst hfield
    have hscale : fine half (0 * 2 ^ 10 + m) = m * 2 ^ 125 := by
      rw [Nat.zero_mul, Nat.zero_add, fine, Format.worth, if_pos (show m < half.span from hm)]
      rfl
    by_cases hzero : m = 0
    · subst hzero
      rw [f16FloatBits_zero hs]
      refine iff_of_true ⟨0, -149, decode_zero hs, Int.le_refl _, ?_⟩ (by omega)
      rw [hscale, Nat.zero_mul, Nat.zero_mul]
    · obtain ⟨k, hk, hk', hlow, hhigh, hbits⟩ := f16FloatBits_subnormal hs (by omega) hm
      have hfraction : m * 2 ^ k &&& 0x3ff = m * 2 ^ k - 2 ^ 10 := by
        change m * 2 ^ k &&& (2 ^ 10 - 1) = _
        rw [and_mask]
        omega
      rw [hbits, hfraction, decode_floatBits hs (by omega) (by omega) (by omega), hscale]
      refine iff_of_false ?_ (by omega)
      intro h
      obtain ⟨m', e', hvalue, -, hsame⟩ := h
      cases hvalue
      -- the value is 2 ^ 13 times as large as it should be
      have hexponent : ((-149 : Int) + (14 - k + 112 : Nat) - 1 - single.lowest).toNat =
          125 - k := by
        have hlowest : single.lowest = -149 := rfl
        omega
      have hleading : (m * 2 ^ k - 2 ^ 10) * 2 ^ 13 + 2 ^ 23 = m * 2 ^ k * 2 ^ 13 := by omega
      have hpow : 2 ^ k * 2 ^ (125 - k) = 2 ^ 125 := by
        have hsum : k + (125 - k) = 125 := by omega
        rw [← Nat.pow_add, hsum]
      rw [hexponent, hleading, Nat.mul_right_comm, Nat.mul_assoc m, hpow] at hsame
      omega
  · rw [f16FloatBits_normal hs (by omega) (by omega) hm,
      decode_floatBits hs (by omega) (by omega) (by omega), worth_half (by omega) hm]
    refine iff_of_true ⟨_, _, rfl, ?_, ?_⟩ (by omega)
    · have hlowest : single.lowest = -149 := rfl
      omega
    · have hexponent : ((-149 : Int) + (e + 112 : Nat) - 1 - single.lowest).toNat = e + 111 := by
        have hlowest : single.lowest = -149 := rfl
        omega
      have hpow : 2 ^ (e + 124) = 2 ^ 13 * 2 ^ (e + 111) := by
        have hsum : e + 124 = 13 + (e + 111) := by omega
        rw [hsum, Nat.pow_add]
      have hplaces : m * 2 ^ 13 + 2 ^ 23 = (m + 2 ^ 10) * 2 ^ 13 := by omega
      rw [hexponent, hpow, ← Nat.mul_assoc, hplaces]

theorem back_half_iff (h : bits < 2 ^ 16) : Back half .f16 bits ↔ ¬ Subnormal bits := by
  obtain ⟨s, e, m, hs, he, hm, rfl⟩ := exists_halfBits h
  obtain ⟨hmagnitude, -⟩ := halfBits_parts (s := s) he hm
  rw [Back, hmagnitude, half_top, subnormal_halfBits he hm]
  by_cases hspecial : e = 31
  · subst hspecial
    refine iff_of_true ⟨_, trip_special hs hm, ?_⟩ (by omega)
    by_cases hzero : m = 0
    · subst hzero
      rw [if_neg (by omega), if_pos rfl]
    · rw [if_pos (by omega), if_neg hzero, (halfBits_parts (by decide) (by decide)).1]
      decide
  have hnumber : ¬ 31 * 2 ^ 10 < e * 2 ^ 10 + m := by omega
  simp only [hnumber, if_false]
  by_cases hfield : e = 0
  · subst hfield
    by_cases hzero : m = 0
    · subst hzero
      exact iff_of_true ⟨_, trip_zero hs, rfl⟩ (by omega)
    · obtain ⟨e', m', he', -, hm', htrip⟩ := trip_subnormal hs (Nat.pos_of_ne_zero hzero) hm
      refine iff_of_false (fun h => ?_) (by omega)
      obtain ⟨r, hr, hsame⟩ := h
      rw [htrip] at hr
      cases hr
      rw [halfBits, halfBits] at hsame
      omega
  · exact iff_of_true ⟨_, trip_normal hs (by omega) (by omega) hm, rfl⟩ (by omega)

theorem back_brain (h : bits < 2 ^ 16) : Back brain .bf16 bits := by
  refine ⟨_, congrArg Except.ok (tensorFloatToBf16_tensorBf16ToFloat h), ?_⟩
  rw [brain_top, brain_sign]
  by_cases hsignal : Signalling (bits * 2 ^ 16)
  · rw [if_pos hsignal]
    obtain ⟨hfield, hpos, hlow⟩ := hsignal
    rw [if_pos (by omega)]
    omega
  · rw [if_neg hsignal]
    split
    · assumption
    · rfl

theorem Kept.nearest (hinfinite : fine f f.top ≤ single.worth single.top)
    (h : Kept f bits r) (hnumber : bits % single.sign ≤ single.top) :
    r / f.sign = bits / single.sign ∧
      Nearest (fine f) f.top (single.worth (bits % single.sign)) (r % f.sign) := by
  obtain ⟨-, h⟩ := h
  rw [if_neg (Nat.not_lt.2 hnumber)] at h
  refine ⟨h.1, ?_⟩
  by_cases htop : bits % single.sign = single.top
  · have hlast := h.2
    rw [if_pos htop] at hlast
    rw [htop, hlast]
    exact nearest_top (fine_lt f) hinfinite
  · have hlast := h.2
    rwa [if_neg htop] at hlast

theorem fine_single (q : Nat) : fine single q = single.worth q := Nat.mul_one _

theorem Kept.ordered {bits' r' : Nat} (hinfinite : fine f f.top ≤ single.worth single.top)
    (h : Kept f bits r) (h' : Kept f bits' r') (hnumber : bits % single.sign ≤ single.top)
    (hnumber' : bits' % single.sign ≤ single.top)
    (hle : ordered single bits ≤ ordered single bits') : ordered f r ≤ ordered f r' := by
  obtain ⟨hsign, hnearest⟩ := h.nearest hinfinite hnumber
  obtain ⟨hsign', hnearest'⟩ := h'.nearest hinfinite hnumber'
  have hmono {q q' : Nat} (hq : q ≤ q') : fine f q ≤ fine f q' := rising_le (fine_lt f) hq
  rw [XPerl.TensorXs.ordered, XPerl.TensorXs.ordered, fine_single, fine_single] at hle
  rw [XPerl.TensorXs.ordered, XPerl.TensorXs.ordered, hsign, hsign']
  by_cases hneg : bits / single.sign = 1
  · rw [if_pos hneg] at hle ⊢
    by_cases hneg' : bits' / single.sign = 1
    · rw [if_pos hneg'] at hle ⊢
      have hmagnitude := hmono (hnearest'.mono (fine_lt f) hnearest (by omega))
      omega
    · rw [if_neg hneg']
      omega
  · rw [if_neg hneg] at hle ⊢
    by_cases hneg' : bits' / single.sign = 1
    · -- both are zeros
      rw [if_pos hneg'] at hle ⊢
      have hzero : fine f 0 = 0 := by
        rw [fine, Format.worth, if_pos f.span_pos, Nat.zero_mul]
      have hclose := hnearest.closest 0 (Nat.zero_le _)
      have hclose' := hnearest'.closest 0 (Nat.zero_le _)
      rw [hzero] at hclose hclose'
      simp only [Nat.dist] at hclose hclose'
      omega
    · rw [if_neg hneg'] at hle ⊢
      have hmagnitude := hmono (hnearest.mono (fine_lt f) hnearest' (by omega))
      omega

/-- The order is kept between halves stored rightly, and between all bfloat16s. -/
def OrderKept (bits bits' : Nat) : Prop :=
  (∀ r r', HalfRange bits → HalfRange bits' → tensorFloatToF16 (nvOfFloat bits) = .ok r →
    tensorFloatToF16 (nvOfFloat bits') = .ok r' → ordered half r ≤ ordered half r') ∧
  ordered brain (tensorFloatToBf16 (nvOfFloat bits)) ≤
    ordered brain (tensorFloatToBf16 (nvOfFloat bits'))

theorem orderKept {bits' : Nat} (h : bits < 2 ^ 32) (h' : bits' < 2 ^ 32)
    (hnumber : bits % 2 ^ 31 ≤ 255 * 2 ^ 23) (hnumber' : bits' % 2 ^ 31 ≤ 255 * 2 ^ 23)
    (hle : ordered single bits ≤ ordered single bits') : OrderKept bits bits' := by
  constructor
  · intro r r' hrange hrange' hr hr'
    obtain ⟨q, hq, hstored⟩ := (halfStored_iff h).2 hrange
    obtain ⟨q', hq', hstored'⟩ := (halfStored_iff h').2 hrange'
    obtain rfl : q = r := Except.ok.inj (hq.symm.trans hr)
    obtain rfl : q' = r' := Except.ok.inj (hq'.symm.trans hr')
    exact hstored.ordered (by decide) hstored' hnumber hnumber' hle
  · have hstored : BrainStored bits := (brainStored_iff h).2 (Or.inl hnumber)
    have hstored' : BrainStored bits' := (brainStored_iff h').2 (Or.inl hnumber')
    exact Kept.ordered (by decide) hstored hstored' hnumber hnumber' hle

/-- Storing rounds to nearest and loading is exact but for the magnitudes near the subnormal halves
and some NaNs; where it rounds it keeps the order. -/
theorem half_storage {bits bits' word : Nat} (h : bits < 2 ^ 32) (h' : bits' < 2 ^ 32)
    (hword : word < 2 ^ 16) :
    (HalfStored bits ↔ HalfRange bits) ∧ (BrainStored bits ↔ BrainRange bits) ∧
      (Loaded word (tensorF16ToFloat word) ↔ ¬ Subnormal word) ∧
      (Back half .f16 word ↔ ¬ Subnormal word) ∧ Back brain .bf16 word ∧
      (bits % 2 ^ 31 ≤ 255 * 2 ^ 23 → bits' % 2 ^ 31 ≤ 255 * 2 ^ 23 →
        ordered single bits ≤ ordered single bits' → OrderKept bits bits') :=
  ⟨halfStored_iff h, brainStored_iff h, loaded_iff hword, back_half_iff hword, back_brain hword,
    fun hnumber hnumber' hle => orderKept h h' hnumber hnumber' hle⟩

/-- One, two and the half of one. -/
theorem half_storage_pair : (Loaded 0x3c00 (tensorF16ToFloat 0x3c00) ↔ ¬ Subnormal 0x3c00) ∧
    OrderKept 0x3f800000 0x40000000 :=
  have hstorage := half_storage (show 0x3f800000 < 2 ^ 32 by decide)
    (show 0x40000000 < 2 ^ 32 by decide) (show 0x3c00 < 2 ^ 16 by decide)
  ⟨hstorage.2.2.1, hstorage.2.2.2.2.2 (by decide) (by decide) (by decide)⟩

/-- The float 2 ^ -15, a NaN, and the least half. -/
theorem half_storage_fails :
    ¬ HalfStored 0x38000000 ∧ ¬ BrainStored 0x7fffffff ∧
      ¬ Loaded 1 (tensorF16ToFloat 1) := by
  rw [halfStored_iff (by decide), brainStored_iff (by decide), loaded_iff (by decide), HalfRange,
    BrainRange, Subnormal]
  decide

end XPerl.TensorXs
