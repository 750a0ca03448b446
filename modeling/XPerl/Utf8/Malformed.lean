import XPerl.Utf8.Decoder

/-! What the slow path of the decoder makes of any bytes. -/

namespace XPerl.Utf8

open XPerl.Framework.PlaceValue

variable {c x : U8} {us rest s : List U8} {flags : U32} {uv : UV} {k n v : Nat}

theorem toNat_accumulate (uv : UV) (c : U8) :
    (utf8Accumulate uv c).toNat = (uv.toNat * 64 + sixBits c) % 2 ^ 64 := by
  have hsix : ((c &&& 0x3F).setWidth 64).toNat = sixBits c := by
    rw [BitVec.toNat_setWidth, BitVec.toNat_and, sixBits]
    have hlow : c.toNat &&& (0x3F : U8).toNat = c.toNat % 64 := Nat.and_two_pow_sub_one_eq_mod _ 6
    rw [hlow]
    omega
  have hshift : (uv <<< 6).toNat = (uv.toNat <<< 6) % 2 ^ 64 := BitVec.toNat_shiftLeft
  have hlt := sixBits_lt c
  rw [utf8Accumulate, BitVec.toNat_or, hsix, hshift, Nat.shiftLeft_eq]
  have hmul : uv.toNat * 2 ^ 6 % 2 ^ 64 = (uv.toNat % 2 ^ 58) <<< 6 := by
    rw [Nat.shiftLeft_eq]
    omega
  rw [hmul, ← Nat.shiftLeft_add_eq_or_of_lt (by omega), Nat.shiftLeft_eq]
  omega

theorem readFrom_mod (m acc : Nat) (ds : List Nat) :
    readFrom 64 (acc % m) ds % m = readFrom 64 acc ds % m := by
  induction ds generalizing acc with
  | nil => exact Nat.mod_mod _ _
  | cons d ds ih =>
    rw [readFrom_cons, readFrom_cons, ← ih, ← ih (acc * 64 + d)]
    congr 2
    rw [Nat.add_mod, Nat.mod_mul_mod, ← Nat.add_mod]

theorem accumulateLoop_eq (uv : UV) (curlen : Nat) (rest : List U8) :
    (accumulateLoop uv curlen rest).1.toNat =
        readFrom 64 uv.toNat ((rest.takeWhile isContinuation).map sixBits) % 2 ^ 64 ∧
      (accumulateLoop uv curlen rest).2.1 = curlen + (rest.takeWhile isContinuation).length ∧
      (accumulateLoop uv curlen rest).2.2 =
        decide ((rest.takeWhile isContinuation).length < rest.length) := by
  induction rest generalizing uv curlen with
  | nil => exact ⟨(Nat.mod_eq_of_lt uv.isLt).symm, rfl, rfl⟩
  | cons c rest ih =>
    rw [accumulateLoop]
    by_cases hc : isContinuation c = true
    · obtain ⟨huv, hlen, hend⟩ := ih (utf8Accumulate uv c) (curlen + 1)
      rw [if_pos hc, List.takeWhile_cons_of_pos hc]
      refine ⟨?_, ?_, ?_⟩
      · rw [huv, toNat_accumulate, readFrom_mod, List.map_cons, readFrom_cons]
      · rw [hlen, List.length_cons]
        omega
      · rw [hend, List.length_cons, List.length_cons]
        apply decide_eq_decide.2
        omega
    · rw [if_neg hc, List.takeWhile_cons_of_neg hc]
      refine ⟨(Nat.mod_eq_of_lt uv.isLt).symm, rfl, ?_⟩
      rw [List.length_nil, List.length_cons]
      exact (decide_eq_true (Nat.succ_pos _)).symm

theorem toNat_fillLoop (uv : UV) (n : Nat) :
    (fillLoop uv n).toNat = uv.toNat * 64 ^ n % 2 ^ 64 := by
  induction n generalizing uv with
  | zero =>
    rw [fillLoop, Nat.pow_zero, Nat.mul_one]
    exact (Nat.mod_eq_of_lt uv.isLt).symm
  | succ n ih =>
    have hzero : sixBits 0x80 = 0 := by decide
    have hpow : 64 ^ (n + 1) = 64 * 64 ^ n := Nat.pow_succ'
    rw [fillLoop, ih, toNat_accumulate, hzero, Nat.add_zero, Nat.mod_mul_mod, hpow, Nat.mul_assoc]

def Overlong (c : U8) (us : List U8) : Prop :=
  ∀ ds, Whole c (us ++ ds) → width (value c (us ++ ds)) < utf8Skip c

def Overflows (c : U8) (us : List U8) : Prop :=
  ∀ ds, Whole c (us ++ ds) → maxLegalCP < value c (us ++ ds)

def Surely (c : U8) (us : List U8) (P : Nat → Prop) : Prop :=
  ∀ ds, Whole c (us ++ ds) → (width (value c (us ++ ds)) < utf8Skip c → Overlong c us) →
    P (value c (us ++ ds))

theorem Whole.width_lt_iff (h : Whole c us) :
    width (value c us) < utf8Skip c ↔ value c us < least (utf8Skip c) := by
  constructor
  · intro hlt
    by_contra hle
    have hwidth := h.width_value (Nat.not_lt.1 hle)
    omega
  · intro hlt
    have hmem := utf8Skip_mem h.first
    generalize value c us = v at hlt
    simp only [lengths, List.mem_cons, List.not_mem_nil, or_false] at hmem
    rcases hmem with hn | hn | hn | hn | hn | hn | hn <;> rw [hn] at hlt ⊢ <;>
      simp only [least] at hlt <;> rw [width] <;> split_ifs <;> omega

theorem overlong_iff :
    Overlong c us ↔ ∀ ds, Whole c (us ++ ds) → value c (us ++ ds) < least (utf8Skip c) :=
  forall₂_congr fun _ hw => hw.width_lt_iff

theorem surely_iff {P : Nat → Prop} :
    Surely c us P ↔ ∀ ds, Whole c (us ++ ds) →
      (value c (us ++ ds) < least (utf8Skip c) → Overlong c us) → P (value c (us ++ ds)) :=
  forall₂_congr fun _ hw => by rw [hw.width_lt_iff]

theorem Begun.exists_possible (h : Begun c us) :
    ∃ ds, Whole c (us ++ ds) ∧ (width (value c (us ++ ds)) < utf8Skip c → Overlong c us) := by
  by_cases hoverlong : Overlong c us
  · obtain ⟨ds, hds⟩ := h.exists_whole
    exact ⟨ds, hds, fun _ => hoverlong⟩
  · rw [Overlong] at hoverlong
    push Not at hoverlong
    obtain ⟨ds, hds, hle⟩ := hoverlong
    exact ⟨ds, hds, fun hlt => absurd hlt (Nat.not_lt.2 hle)⟩

theorem Begun.not_surely {P : Nat → Prop} (h : Begun c us) (hp : Surely c us fun v => ¬ P v) :
    ¬ Surely c us P := by
  intro hsure
  obtain ⟨ds, hds, hshort⟩ := h.exists_possible
  exact hp ds hds hshort (hsure ds hds hshort)

theorem Whole.surely_iff {P : Nat → Prop} (h : Whole c us) : Surely c us P ↔ P (value c us) := by
  have hall := h.forall_append fun us' =>
    (width (value c us') < utf8Skip c → Overlong c us) → P (value c us')
  have hoverlong : width (value c us) < utf8Skip c → Overlong c us := fun hlt =>
    (h.forall_append fun us' => width (value c us') < utf8Skip c).2 hlt
  rw [Surely, hall]
  exact ⟨fun hp => hp hoverlong, fun hp _ => hp⟩

theorem Begun.surely_of_all {P : Nat → Prop} (h : Begun c us)
    (hall : Overlong c us ∨ least (utf8Skip c) ≤ value c us * 64 ^ missing c us) :
    Surely c us P ↔
      ∀ v, value c us * 64 ^ missing c us ≤ v → v < (value c us + 1) * 64 ^ missing c us →
        P v := by
  rw [← h.forall_value_iff P, XPerl.Utf8.surely_iff]
  apply forall₂_congr
  intro ds hds
  have hpossible : value c (us ++ ds) < least (utf8Skip c) → Overlong c us := fun hlt => by
    rcases hall with hoverlong | hle
    · exact hoverlong
    · exact absurd hlt (Nat.not_lt.2 (h.forall_ge_iff.2 hle ds hds))
  exact ⟨fun hp => hp hpossible, fun hp _ => hp⟩

section Ranges

variable {P : Nat → Prop} {q : Nat}

theorem forall_super_iff :
    (∀ v, q * 64 ^ k ≤ v → v < (q + 1) * 64 ^ k → unicodeIsSuper v) ↔
      unicodeIsSuper (q * 64 ^ k) := by
  have hpos : 0 < 64 ^ k := by positivity
  have hsucc : (q + 1) * 64 ^ k = q * 64 ^ k + 64 ^ k := Nat.succ_mul _ _
  simp only [unicodeIsSuper]
  constructor
  · intro hall
    exact hall _ (Nat.le_refl _) (by omega)
  · intro hlow v hv _
    omega

theorem forall_surrogate_iff (hk : 1 ≤ k) :
    (∀ v, q * 64 ^ k ≤ v → v < (q + 1) * 64 ^ k → unicodeIsSurrogate v) ↔
      unicodeIsSurrogate (q * 64 ^ k) := by
  have hpos : 0 < 64 ^ k := by positivity
  have hsucc : (q + 1) * 64 ^ k = q * 64 ^ k + 64 ^ k := Nat.succ_mul _ _
  simp only [unicodeIsSurrogate]
  constructor
  · intro hall
    exact hall _ (Nat.le_refl _) (by omega)
  · intro hlow v hv hlt
    obtain ⟨j, hj⟩ : ∃ j, k = j + 1 := ⟨k - 1, by omega⟩
    subst hj
    -- the surrogates are 32 blocks of 64 numbers
    have hblock : q * 64 ^ (j + 1) = q * 64 ^ j * 64 := by rw [Nat.pow_succ, Nat.mul_assoc]
    cases j with
    | zero =>
      rw [Nat.zero_add, Nat.pow_one] at *
      omega
    | succ j =>
      have hfour : q * 64 ^ (j + 1 + 1) = q * 64 ^ j * 4096 := by
        rw [Nat.pow_succ, Nat.pow_succ, ← Nat.mul_assoc, ← Nat.mul_assoc]
        omega
      cases j with
      | zero =>
        rw [Nat.zero_add, Nat.pow_zero, Nat.mul_one] at hfour
        omega
      | succ j =>
        have hlarge : q * 64 ^ (j + 1 + 1 + 1) = q * 64 ^ j * 262144 := by
          rw [Nat.pow_succ, Nat.pow_succ, Nat.pow_succ, ← Nat.mul_assoc, ← Nat.mul_assoc,
            ← Nat.mul_assoc]
          omega
        omega

theorem not_nonchar_block (hk : 1 ≤ k) : ¬ unicodeIsNonchar (q * 64 ^ k) := by
  intro hn
  have hcases := (noncharGivenNotSuper_iff _).1 hn.2
  obtain ⟨j, hj⟩ : ∃ j, k = j + 1 := ⟨k - 1, by omega⟩
  subst hj
  have hblock : q * 64 ^ (j + 1) = q * 64 ^ j * 64 := by rw [Nat.pow_succ, Nat.mul_assoc]
  omega

end Ranges

def special (c : U8) : Prop := c = 0xF0 ∨ c = 0xF8 ∨ c = 0xFC ∨ c = 0xFE

theorem value_lt_pow (h : Begun c us) (hno : ¬ Overflows c us) :
    value c us * 64 ^ missing c us < 2 ^ 64 := by
  have hge : ¬ maxLegalCP + 1 ≤ value c us * 64 ^ missing c us := fun hle => hno fun ds hds =>
    h.forall_ge_iff.2 hle ds hds
  rw [maxLegalCP] at hge
  omega

theorem Begun.all_or_overlong (h : Begun c us) (hfirst : 0xED ≤ c.toNat)
    (hlong : c = 0xFF → Overlong c us) (hspecial : us = [] → ¬ special c) :
    Overlong c us ∨ least (utf8Skip c) ≤ value c us * 64 ^ missing c us := by
  by_cases hoverlong : Overlong c us
  · exact .inl hoverlong
  have hlast := lt_of_ne_last fun hff => hoverlong (hlong hff)
  refine .inr (h.forall_ge_iff.1 fun ds hds => ?_)
  rw [least_eq (utf8Skip_mem h.first) (skip_ne hlast)]
  have hlength := hds.length
  have hpos := two_le (utf8Skip_mem h.first)
  cases us with
  | nil =>
    have hall : ∀ c : U8, 0xED ≤ c.toNat → c.toNat < 0xFF → ¬ special c →
        twoLeast (utf8Skip c) ≤ lead c * 64 := by
      intro c
      rw [special]
      revert c
      decide
    have htwo := hall c hfirst hlast (hspecial rfl)
    have hmap : (ds.map sixBits).length = utf8Skip c - 2 + 1 := by
      rw [List.nil_append] at hlength
      rw [List.length_map]
      omega
    calc twoLeast (utf8Skip c) * 64 ^ (utf8Skip c - 2)
        ≤ lead c * 64 * 64 ^ (utf8Skip c - 2) := Nat.mul_le_mul_right _ htwo
      _ = lead c * 64 ^ (ds.map sixBits).length := by rw [hmap, Nat.pow_succ', Nat.mul_assoc]
      _ ≤ value c ([] ++ ds) := le_readFrom 64 (lead c) _
  | cons x us =>
    have hx := h.continues x List.mem_cons_self
    have hsecond : ¬ x.toNat < secondLeast c := fun hlt =>
      hoverlong (overlong_iff.2 ((h.overlong_iff_second (by omega) hlast).2 hlt))
    rw [← second_lt_iff (by omega) hlast hx, Nat.not_lt] at hsecond
    have hmap : ((us ++ ds).map sixBits).length = utf8Skip c - 2 := by
      rw [List.cons_append, List.length_cons] at hlength
      rw [List.length_map]
      omega
    calc twoLeast (utf8Skip c) * 64 ^ (utf8Skip c - 2)
        ≤ (lead c * 64 + sixBits x) * 64 ^ (utf8Skip c - 2) := Nat.mul_le_mul_right _ hsecond
      _ = (lead c * 64 + sixBits x) * 64 ^ ((us ++ ds).map sixBits).length := by rw [hmap]
      _ ≤ value c (x :: us ++ ds) := le_readFrom 64 _ _

theorem Begun.surely_of_not_overlong {P : Nat → Prop} (h : Begun c us) (hno : ¬ Overlong c us) :
    Surely c us P ↔
      ∀ v, value c us * 64 ^ missing c us ≤ v → v < (value c us + 1) * 64 ^ missing c us →
        least (utf8Skip c) ≤ v → P v := by
  rw [← h.forall_value_iff fun v => least (utf8Skip c) ≤ v → P v, surely_iff]
  apply forall₂_congr
  intro ds _
  constructor
  · intro hp hle
    exact hp fun hlt => absurd hlt (Nat.not_lt.2 hle)
  · intro hp hpossible
    exact hp (Nat.not_lt.1 fun hlt => hno (hpossible hlt))

theorem special_cases (hc : special c) (hmust : ¬ 6 < utf8Skip c) :
    (c = 0xF0 ∨ c = 0xF8 ∨ c = 0xFC) ∧ Begun c [] ∧ ¬ Overlong c [] := by
  have hcases : c = 0xF0 ∨ c = 0xF8 ∨ c = 0xFC := by
    rcases hc with h | h | h | h
    · exact .inl h
    · exact .inr (.inl h)
    · exact .inr (.inr h)
    · subst h
      exact absurd (by decide) hmust
  have hbegun : Begun c [] := by
    rcases hcases with h | h | h <;> subst h <;>
      exact ⟨by decide, by decide, fun x hx => absurd hx List.not_mem_nil⟩
  refine ⟨hcases, hbegun, fun hoverlong => ?_⟩
  have hle := hbegun.forall_lt_iff.1 (overlong_iff.1 hoverlong)
  rcases hcases with h | h | h <;> subst h <;> revert hle <;> decide

theorem Begun.fillOut_kind (h : Begun c us) (hfirst : 0xED ≤ c.toNat) (hno : ¬ Overflows c us)
    (hmust : 6 < utf8Skip c → Overlong c us) (hmissing : 1 ≤ missing c us)
    (huv : uv.toNat = value c us) :
    (Surely c us unicodeIsSurrogate ↔
        unicodeIsSurrogate (fillOut uv c (1 + us.length) (utf8Skip c)).toNat) ∧
      (Surely c us unicodeIsSuper ↔
        unicodeIsSuper (fillOut uv c (1 + us.length) (utf8Skip c)).toNat) ∧
      (Surely c us unicodeIsNonchar ↔
        unicodeIsNonchar (fillOut uv c (1 + us.length) (utf8Skip c)).toNat) := by
  by_cases hspecial : us = [] ∧ special c
  · obtain ⟨hnil, hspecial⟩ := hspecial
    subst hnil
    have hskip : ¬ 6 < utf8Skip c := fun hlong => by
      obtain hf | hf | hf | hf := hspecial <;> subst hf <;> try exact absurd hlong (by decide)
      have hle := h.forall_lt_iff.1 (overlong_iff.1 (hmust hlong))
      revert hle
      decide
    obtain ⟨hcases, -, hshort⟩ := special_cases hspecial hskip
    have hzero : uv = 0 := by
      apply BitVec.eq_of_toNat_eq
      rw [huv]
      rcases hcases with hf | hf | hf <;> subst hf <;> decide
    subst hzero
    simp only [h.surely_of_not_overlong hshort]
    -- the least number behind each of these bytes decides
    rcases hcases with hf | hf | hf <;> subst hf
    · refine ⟨iff_of_false (fun hall => ?_) (by decide), iff_of_false (fun hall => ?_) (by decide),
        iff_of_false (fun hall => ?_) (by decide)⟩ <;>
        exact absurd (hall 0x10000 (by decide) (by decide) (by decide)) (by decide)
    · refine ⟨iff_of_false (fun hall => ?_) (by decide), iff_of_true (fun v _ _ hle => ?_) (by decide),
        iff_of_false (fun hall => ?_) (by decide)⟩
      · exact absurd (hall 0x200000 (by decide) (by decide) (by decide)) (by decide)
      · have hle : 0x200000 ≤ v := hle
        rw [unicodeIsSuper]
        omega
      · exact absurd (hall 0x200000 (by decide) (by decide) (by decide)) (by decide)
    · refine ⟨iff_of_false (fun hall => ?_) (by decide), iff_of_true (fun v _ _ hle => ?_) (by decide),
        iff_of_false (fun hall => ?_) (by decide)⟩
      · exact absurd (hall 0x4000000 (by decide) (by decide) (by decide)) (by decide)
      · have hle : 0x4000000 ≤ v := hle
        rw [unicodeIsSuper]
        omega
      · exact absurd (hall 0x4000000 (by decide) (by decide) (by decide)) (by decide)
  · have hall := h.all_or_overlong hfirst (fun hff => hmust (by rw [hff]; decide))
      fun hnil hs => hspecial ⟨hnil, hs⟩
    have hlength := h.length
    have hrest : utf8Skip c - (1 + us.length) = missing c us := by
      rw [missing]
      omega
    have hfill : (fillOut uv c (1 + us.length) (utf8Skip c)).toNat =
        value c us * 64 ^ missing c us := by
      rw [fillOut, if_neg fun hs => hspecial ⟨List.length_eq_zero_iff.1 (by omega), hs.2⟩,
        toNat_fillLoop, huv, hrest, Nat.mod_eq_of_lt (value_lt_pow h hno)]
    rw [hfill, h.surely_of_all hall, h.surely_of_all hall, h.surely_of_all hall]
    refine ⟨forall_surrogate_iff hmissing, forall_super_iff, iff_of_false (fun hn => ?_)
      (not_nonchar_block hmissing)⟩
    have hpos : 0 < 64 ^ missing c us := by positivity
    have hsucc : (value c us + 1) * 64 ^ missing c us =
        value c us * 64 ^ missing c us + 64 ^ missing c us := Nat.succ_mul _ _
    exact not_nonchar_block hmissing (hn _ (Nat.le_refl _) (by omega))

theorem Begun.extended_kind (h : Begun c us) (hskip : 6 < utf8Skip c)
    (hmust : Overflows c us ∨ ¬ Overlong c us) :
    Surely c us unicodeIsSuper ∧ ¬ Surely c us unicodeIsSurrogate ∧
      ¬ Surely c us unicodeIsNonchar := by
  have hlarge : Surely c us fun v => 0x80000000 ≤ v := surely_iff.2 fun ds hds hpossible => by
    rcases hmust with hover | hno
    · have hv := hover ds hds
      rw [maxLegalCP] at hv
      omega
    · have hle : least (utf8Skip c) ≤ value c (us ++ ds) := Nat.not_lt.1 fun hlt =>
        hno (hpossible hlt)
      have hall : ∀ n ∈ lengths, 6 < n → 0x80000000 ≤ least n := by decide
      exact (hall _ (utf8Skip_mem h.first) hskip).trans hle
  refine ⟨fun ds hds hp => ?_, h.not_surely fun ds hds hp hs => ?_,
    h.not_surely fun ds hds hp hn => ?_⟩
  · have hv := hlarge ds hds hp
    rw [unicodeIsSuper]
    omega
  · have hv := hlarge ds hds hp
    have hlast := hs.2
    omega
  · have hv := hlarge ds hds hp
    apply hn.1
    rw [unicodeIsSuper]
    omega

section Kinds

variable {m problems : U32} {detected : Int}

def Restricted (flags : U32) (c : U8) (us : List U8) : Prop :=
  (has flags utf8DisallowPerlExtended ∧ 6 < utf8Skip c) ∨
    (has flags utf8DisallowSurrogate ∧ Surely c us unicodeIsSurrogate) ∨
    (has flags utf8DisallowSuper ∧ Surely c us unicodeIsSuper) ∨
    (has flags utf8DisallowNonchar ∧ Surely c us unicodeIsNonchar)

/-- A set of problems in which those of a code point stand as in the flags. -/
structure Follows (m flags : U32) : Prop where
  surrogate : has utf8GotSurrogate m = has flags utf8DisallowSurrogate
  extended : has utf8GotPerlExtended m = has flags utf8DisallowPerlExtended
  super : has utf8GotSuper m = has flags utf8DisallowSuper
  nonchar : has utf8GotNonchar m = has flags utf8DisallowNonchar

theorem ite_has {p : Prop} [Decidable p] (problems found m : U32) :
    has (if p then problems ||| found else problems) m =
      (has problems m || (decide p && has found m)) := by
  by_cases hp : p
  · rw [if_pos hp, or_has, decide_eq_true hp, Bool.true_and]
  · rw [if_neg hp, decide_eq_false hp, Bool.false_and, Bool.or_false]

theorem asked_and (flags a b : U32) : (has flags (a ||| b) && has flags a) = has flags a := by
  rw [has_or]
  cases has flags a <;> cases has flags b <;> rfl

theorem has_asked {got disallow : U32} (h : has got m = has flags disallow) (warn : U32) :
    has (if has flags (disallow ||| warn) then got else 0) m = has flags disallow := by
  have hand := asked_and flags disallow warn
  by_cases hasked : has flags (disallow ||| warn) = true
  · rw [if_pos hasked, h]
  · rw [if_neg hasked]
    rw [Bool.not_eq_true] at hasked
    rw [hasked, Bool.false_and] at hand
    rw [← hand]
    exact has_zero m

theorem has_classify (h : Follows m flags) (uv : UV) :
    has (classify flags uv) m = true ↔
      (has flags utf8DisallowSurrogate ∧ unicodeIsSurrogate uv.toNat) ∨
        (has flags utf8DisallowSuper ∧ unicodeIsSuper uv.toNat) ∨
        (has flags utf8DisallowNonchar ∧ unicodeIsNonchar uv.toNat) := by
  rw [classify]
  by_cases hs : unicodeIsSurrogate uv.toNat
  · have hsuper : ¬ unicodeIsSuper uv.toNat := fun hp => by
      have hlast := hs.2
      rw [unicodeIsSuper] at hp
      omega
    have hnonchar : ¬ unicodeIsNonchar uv.toNat := fun hn => by
      have hcases := (noncharGivenNotSuper_iff _).1 hn.2
      have hlast := hs
      rw [unicodeIsSurrogate] at hlast
      omega
    rw [if_pos hs, has_asked h.surrogate]
    simp [hs, hsuper, hnonchar]
  · rw [if_neg hs]
    by_cases hp : unicodeIsSuper uv.toNat
    · have hnonchar : ¬ unicodeIsNonchar uv.toNat := fun hn => hn.1 hp
      rw [if_pos hp, has_asked h.super]
      simp [hs, hp, hnonchar]
    · rw [if_neg hp]
      by_cases hn : unicodeIsNoncharGivenNotSuper uv.toNat
      · have hnonchar : unicodeIsNonchar uv.toNat := ⟨hp, hn⟩
        rw [if_pos hn, has_asked h.nonchar]
        simp [hs, hp, hnonchar]
      · have hnonchar : ¬ unicodeIsNonchar uv.toNat := fun hn' => hn hn'.2
        rw [if_neg hn]
        simp [hs, hp, hnonchar]

theorem Begun.problematic_has (h : Begun c us) (hfirst : 0xED ≤ c.toNat) (hf : Follows m flags)
    (hover : has problems utf8GotOverflow = true ↔ Overflows c us)
    (hshort : has problems utf8GotTooShort = true ↔ 1 ≤ missing c us)
    (hdetected : 0 < detected ↔ Overlong c us)
    (hfill : 1 ≤ missing c us → has flags (~~~(utf8DisallowNonchar ||| utf8WarnNonchar)))
    (huv : ¬ Overflows c us → uv.toNat = value c us) :
    has (problematic flags problems uv c (1 + us.length) (utf8Skip c) detected).1 m = true ↔
      has problems m = true ∨ Restricted flags c us := by
  have hasked : (has flags (utf8DisallowPerlExtended ||| utf8WarnPerlExtended) &&
      has utf8GotPerlExtended m) = has flags utf8DisallowPerlExtended := by
    rw [hf.extended]
    exact asked_and _ _ _
  have hsuperAsked : (has flags (utf8DisallowSuper ||| utf8WarnSuper) && has utf8GotSuper m) =
      has flags utf8DisallowSuper := by
    rw [hf.super]
    exact asked_and _ _ _
  generalize hextended : (if 6 < utf8Skip c ∧
      has flags (utf8DisallowPerlExtended ||| utf8WarnPerlExtended) = true then
      problems ||| utf8GotPerlExtended else problems) = extended
  have hhas (mask : U32) : has extended mask = (has problems mask ||
      (decide (6 < utf8Skip c ∧
        has flags (utf8DisallowPerlExtended ||| utf8WarnPerlExtended) = true) &&
        has utf8GotPerlExtended mask)) := by
    rw [← hextended]
    exact ite_has _ _ _
  have hm : has extended m = true ↔ has problems m = true ∨
      (has flags utf8DisallowPerlExtended = true ∧ 6 < utf8Skip c) := by
    rw [hhas, ← hasked]
    by_cases hlong : 6 < utf8Skip c <;> simp [hlong]
  have hover' : has extended utf8GotOverflow = has problems utf8GotOverflow := by
    rw [hhas, show has utf8GotPerlExtended utf8GotOverflow = false by decide, Bool.and_false,
      Bool.or_false]
  have hshort' : has extended utf8GotTooShort = has problems utf8GotTooShort := by
    rw [hhas, show has utf8GotPerlExtended utf8GotTooShort = false by decide, Bool.and_false,
      Bool.or_false]
  rw [problematic]
  dsimp only
  rw [hextended, hover', hshort', Restricted]
  by_cases hmust : 6 < utf8Skip c ∧ (has problems utf8GotOverflow = true ∨ detected ≤ 0)
  · have hkind := h.extended_kind hmust.1 (hmust.2.imp hover.1 fun hle hlong =>
      Int.not_lt.2 hle (hdetected.2 hlong))
    have hfound : (if has flags (utf8DisallowSuper ||| utf8WarnSuper) = true then
        (extended ||| utf8GotSuper, uv) else (extended, uv)).1 =
        if has flags (utf8DisallowSuper ||| utf8WarnSuper) = true then extended ||| utf8GotSuper
        else extended := by
      split_ifs <;> rfl
    rw [if_pos hmust, hfound, ite_has, Bool.or_eq_true, hm, Bool.decide_eq_true, hsuperAsked]
    simp only [hkind.1, hkind.2.1, hkind.2.2, and_true, and_false, false_or, or_false, or_assoc]
  · rw [if_neg hmust, or_has, Bool.or_eq_true, hm, has_classify hf, or_assoc]
    have hlong : 6 < utf8Skip c → Overlong c us := fun hskip => by
      rw [← hdetected]
      by_contra hle
      exact hmust ⟨hskip, .inr (Int.not_lt.1 hle)⟩
    have hno : ¬ Overflows c us := fun hoverflows => by
      by_cases hskip : 6 < utf8Skip c
      · exact hmust ⟨hskip, .inl (hover.2 hoverflows)⟩
      · obtain ⟨ds, hds⟩ := h.exists_whole
        have hlast : c.toNat < 0xFF := lt_of_ne_last fun hff => hskip (by rw [hff]; decide)
        exact Nat.not_lt.2 (hds.value_le hlast) (hoverflows ds hds)
    have hvalue := huv hno
    by_cases hmissing : 1 ≤ missing c us
    · have hand : has problems utf8GotTooShort = true ∧
          has flags (~~~(utf8DisallowNonchar ||| utf8WarnNonchar)) = true :=
        ⟨hshort.2 hmissing, hfill hmissing⟩
      obtain ⟨hsurrogate, hsuper, hnonchar⟩ := h.fillOut_kind hfirst hno hlong hmissing hvalue
      rw [if_pos hand, hsurrogate, hsuper, hnonchar]
    · have hand : ¬ (has problems utf8GotTooShort = true ∧
          has flags (~~~(utf8DisallowNonchar ||| utf8WarnNonchar)) = true) :=
        fun hand => hmissing (hshort.1 hand.1)
      have hlength := h.length
      have hwhole : Whole c us := ⟨h.first, by rw [missing] at hmissing; omega, h.continues⟩
      rw [if_neg hand, hvalue, hwhole.surely_iff, hwhole.surely_iff, hwhole.surely_iff]

theorem problematic_value (h : has problems utf8GotTooShort = false) :
    (problematic flags problems uv c k n detected).2 = uv := by
  have hextended : has (problems ||| utf8GotPerlExtended) utf8GotTooShort = false := by
    rw [or_has, h]
    decide
  rw [problematic]
  dsimp only
  split_ifs with _ _ _ hand _ _ hand
  all_goals first
    | rfl
    | exact absurd hand.1 (by rw [hextended]; decide)
    | exact absurd hand.1 (by rw [h]; decide)

end Kinds

/-- The continuation bytes that follow the first byte of a string, as far as its character goes. -/
def following (c : U8) (rest : List U8) : List U8 :=
  (rest.take (utf8Skip c - 1)).takeWhile isContinuation

def Tolerated (flags : U32) (c : U8) (rest : List U8) : Prop :=
  (rest.length + 1 < utf8Skip c → has flags utf8GotShort) ∧
    ((following c rest).length < (rest.take (utf8Skip c - 1)).length →
      has flags utf8GotNonContinuation) ∧
    (Overflows c (following c rest) → has flags utf8GotOverflow) ∧
    (Overlong c (following c rest) →
      has flags utf8AllowLong ∨ has flags utf8AllowLongAndItsValue)

def AllowedStart (flags : U32) (c : U8) (rest : List U8) : Prop :=
  Tolerated flags c rest ∧ ¬ Restricted flags c (following c rest)

theorem begun_following (h : 0xC0 ≤ c.toNat) (rest : List U8) : Begun c (following c rest) := by
  have hpos := two_le (utf8Skip_mem h)
  have hle : (following c rest).length ≤ (rest.take (utf8Skip c - 1)).length :=
    (List.takeWhile_prefix _).length_le
  rw [List.length_take] at hle
  refine ⟨h, by omega, fun x hx => ?_⟩
  exact List.all_eq_true.1 List.all_takeWhile x hx

theorem take_following (c : U8) (rest : List U8) :
    (c :: rest).take (1 + (following c rest).length) = c :: following c rest := by
  have hbegins : following c rest <+: rest :=
    (List.takeWhile_prefix _).trans (List.take_prefix _ _)
  rw [Nat.add_comm, List.take_succ_cons, ← List.prefix_iff_eq_take.1 hbegins]

theorem missing_following (h : 0xC0 ≤ c.toNat) (rest : List U8) :
    1 ≤ missing c (following c rest) ↔ rest.length + 1 < utf8Skip c ∨
      (following c rest).length < (rest.take (utf8Skip c - 1)).length := by
  have hlength := (begun_following h rest).length
  have hle : (following c rest).length ≤ (rest.take (utf8Skip c - 1)).length :=
    (List.takeWhile_prefix _).length_le
  rw [missing]
  rw [List.length_take] at hle ⊢
  omega

theorem Begun.almostCertainly_iff (h : Begun c us) :
    (doesUtf8Overflow (c :: us)).almostCertainly = true ↔ Overflows c us := by
  rcases h.doesUtf8Overflow_iff with hover | hno
  · rw [hover.1]
    exact iff_of_true rfl hover.2
  · refine iff_of_false ?_ hno.2
    rcases hno.1 with heq | heq <;> rw [heq] <;> decide

/-- What the helper has found before it looks at the code point. -/
structure Found (flags : U32) (c : U8) (rest : List U8) (x : Examined) : Prop where
  read : x.curlen = 1 + (following c rest).length
  codePoint : ¬ Overflows c (following c rest) → x.uv.toNat = value c (following c rest)
  overlong : 0 < x.overlongDetectLength ↔ Overlong c (following c rest)
  kept : ∀ p < 32, p ≠ 13 → x.flags.getLsbD p = flags.getLsbD p
  keptLong : has flags utf8AllowLongAndItsValue = false → x.flags = flags
  problems : ∀ m, has x.possibleProblems m = true ↔
    (rest.length + 1 < utf8Skip c ∧ has utf8GotShort m) ∨
    ((following c rest).length < (rest.take (utf8Skip c - 1)).length ∧
      has utf8GotNonContinuation m) ∨
    (Overflows c (following c rest) ∧ has utf8GotOverflow m) ∨
    (Overlong c (following c rest) ∧
      has (if has flags utf8AllowLongAndItsValue then utf8GotLongWithValue else utf8GotLong) m)

theorem lead_setWidth (c : U8) :
    ((c &&& utfStartMask (utf8Skip c)).setWidth 64).toNat = lead c := by
  have hlt := (c &&& utfStartMask (utf8Skip c)).isLt
  rw [BitVec.toNat_setWidth, lead]
  omega

theorem examine_found (h : 0xC0 ≤ c.toNat) (flags : U32) (rest : List U8) :
    Found flags c rest (examine flags c rest) := by
  have hbegun := begun_following h rest
  obtain ⟨hread, hlen, hend⟩ := accumulateLoop_eq ((c &&& utfStartMask (utf8Skip c)).setWidth 64) 1
    (rest.take (utf8Skip c - 1))
  rw [lead_setWidth] at hread
  rw [examine]
  dsimp only
  generalize accumulateLoop ((c &&& utfStartMask (utf8Skip c)).setWidth 64) 1
    (rest.take (utf8Skip c - 1)) = looped at hread hlen hend ⊢
  obtain ⟨uv, curlen, interrupted⟩ := looped
  change curlen = 1 + (following c rest).length at hlen
  change interrupted = decide ((following c rest).length < _) at hend
  change uv.toNat = value c (following c rest) % 2 ^ 64 at hread
  subst hlen hend
  dsimp only
  rw [take_following, if_pos h]
  have hover := hbegun.almostCertainly_iff
  have hlong := hbegun.isUtf8Overlong_pos_iff
  rw [← overlong_iff] at hlong
  refine ⟨rfl, fun hno => ?_, hlong, fun p hp hne => ?_, fun hvalue => ?_, fun m => ?_⟩
  · have hpos : 1 ≤ 64 ^ missing c (following c rest) := Nat.one_le_pow _ _ (by decide)
    have hlt := value_lt_pow hbegun hno
    have hle : value c (following c rest) ≤
        value c (following c rest) * 64 ^ missing c (following c rest) :=
      Nat.le_mul_of_pos_right _ hpos
    dsimp only
    rw [if_neg fun ho => hno (hover.1 ho), hread, Nat.mod_eq_of_lt (by omega)]
  · dsimp only
    split_ifs
    · rw [BitVec.getLsbD_or, utf8AllowLong, utf8GotLong, getLsbD_bit (by decide),
        decide_eq_false hne, Bool.or_false]
    · rfl
  · dsimp only
    rw [hvalue, if_neg fun hand => Bool.false_ne_true hand.2]
  · dsimp only
    rw [ite_has, ite_has, ite_has, Bool.or_eq_true, Bool.or_eq_true, Bool.or_eq_true,
      Bool.and_eq_true, Bool.and_eq_true, Bool.and_eq_true, decide_eq_true_eq, decide_eq_true_eq,
      decide_eq_true_eq, decide_eq_true_eq, hover, hlong, or_assoc, or_assoc]
    apply or_congr_left
    rw [List.length_cons]
    by_cases hshort : rest.length + 1 < utf8Skip c
    · rw [if_pos hshort]
      simp [hshort]
    · rw [if_neg hshort]
      simp [hshort]

theorem problematic_mono {problems m : U32} {detected : Int} (h : has problems m = true) :
    has (problematic flags problems uv c k n detected).1 m = true := by
  have hmore (found : U32) : has (problems ||| found) m = true := by
    rw [or_has, h, Bool.true_or]
  rw [problematic]
  dsimp only
  split_ifs <;> simp only [or_has, h, Bool.true_or]

theorem Begun.not_restricted (h : Begun c us) (hlow : c.toNat < 0xED) :
    ¬ Restricted flags c us := by
  have hall : ∀ c : U8, 0xC0 ≤ c.toNat → c.toNat < 0xED →
      utf8Skip c ≤ 6 ∧ (lead c + 1) * 64 ^ (utf8Skip c - 1) ≤ 0xD000 := by decide
  obtain ⟨hskip, hbound⟩ := hall c h.first hlow
  have hvalue (ds : List U8) (hds : Whole c (us ++ ds)) : value c (us ++ ds) < 0xD000 := by
    have hlength := hds.length
    have hlt : value c (us ++ ds) < (lead c + 1) * 64 ^ ((us ++ ds).map sixBits).length :=
      readFrom_lt (numeral_sixBits _)
    rw [List.length_map, show (us ++ ds).length = utf8Skip c - 1 by omega] at hlt
    omega
  have hsurrogate : ¬ Surely c us unicodeIsSurrogate := h.not_surely fun ds hds _ hs => by
    have hv := hvalue ds hds
    have hfirst := hs.1
    omega
  have hsuper : ¬ Surely c us unicodeIsSuper := h.not_surely fun ds hds _ hs => by
    have hv := hvalue ds hds
    rw [unicodeIsSuper] at hs
    omega
  have hnonchar : ¬ Surely c us unicodeIsNonchar := h.not_surely fun ds hds _ hn => by
    have hv := hvalue ds hds
    have hcases := (noncharGivenNotSuper_iff _).1 hn.2
    omega
  rw [Restricted]
  simp only [hsurrogate, hsuper, hnonchar, Nat.not_lt.2 hskip, and_false, or_self,
    not_false_eq_true]

theorem not_restricted_of_flags
    (h : has flags (utf8DisallowIllegalInterchange ||| utf8WarnIllegalInterchange) = false) :
    ¬ Restricted flags c us := by
  rw [utf8DisallowIllegalInterchange] at h
  simp only [has_or, Bool.or_eq_false_iff] at h
  obtain ⟨⟨⟨⟨hsuper, hextended⟩, hsurrogate⟩, hnonchar⟩, -⟩ := h
  rw [Restricted, hsuper, hextended, hsurrogate, hnonchar]
  simp

theorem Found.has_flag {x : Examined} (h : Found flags c rest x) {p : Nat} (hp : p < 32)
    (hne : p ≠ 13) : has x.flags (bit p) = has flags (bit p) := by
  rw [has_bit hp, has_bit hp, h.kept p hp hne]

theorem bit_rejects {p : Nat} (hp : p < 32) (flags : U32) :
    has (bit p) (flags ^^^ defaultRejects) = (flags.getLsbD p ^^ defaultRejects.getLsbD p) := by
  rw [bit_has hp, BitVec.getLsbD_xor]

theorem Found.follows {x : Examined} (h : Found flags c rest x) :
    Follows (x.flags ^^^ defaultRejects) flags := by
  have hclass (p : Nat) (hp : p < 32) (hne : p ≠ 13) (hd : defaultRejects.getLsbD p = false) :
      has (bit p) (x.flags ^^^ defaultRejects) = has flags (bit p) := by
    rw [bit_rejects hp, hd, Bool.xor_false, h.kept p hp hne, has_bit hp]
  exact ⟨hclass 5 (by decide) (by decide) (by decide), hclass 7 (by decide) (by decide) (by decide),
    hclass 9 (by decide) (by decide) (by decide), hclass 11 (by decide) (by decide) (by decide)⟩

theorem Found.rejects_iff {x : Examined} (h : Found flags c rest x) :
    has x.possibleProblems (x.flags ^^^ defaultRejects) = true ↔ ¬ Tolerated flags c rest := by
  have hdefault (p : Nat) (hp : p < 32) (hne : p ≠ 13) (hd : defaultRejects.getLsbD p = true) :
      has (bit p) (x.flags ^^^ defaultRejects) = !has flags (bit p) := by
    rw [bit_rejects hp, hd, Bool.xor_true, h.kept p hp hne, has_bit hp]
  have hlong : has (if has flags utf8AllowLongAndItsValue then utf8GotLongWithValue else utf8GotLong)
      (x.flags ^^^ defaultRejects) =
        !(has flags utf8AllowLong || has flags utf8AllowLongAndItsValue) := by
    by_cases hvalue : has flags utf8AllowLongAndItsValue = true
    · rw [if_pos hvalue, utf8GotLongWithValue, hdefault 14 (by decide) (by decide) (by decide),
        hvalue, Bool.or_true]
      exact congrArg not hvalue
    · rw [Bool.not_eq_true] at hvalue
      rw [hvalue, if_neg Bool.false_ne_true, utf8GotLong, bit_rejects (by decide),
        h.keptLong hvalue, show defaultRejects.getLsbD 13 = true by decide, Bool.xor_true,
        Bool.or_false, utf8AllowLong, utf8GotLong, has_bit (by decide)]
  rw [Tolerated, h.problems, hlong, utf8GotShort, utf8GotNonContinuation, utf8GotOverflow,
    hdefault 3 (by decide) (by decide) (by decide), hdefault 4 (by decide) (by decide) (by decide),
    hdefault 0 (by decide) (by decide) (by decide)]
  simp only [Bool.not_eq_true', ← Bool.not_eq_true, Bool.or_eq_true]
  tauto

theorem Found.tooShort_iff {x : Examined} (hx : Found flags c rest x) (h : 0xC0 ≤ c.toNat) :
    has x.possibleProblems utf8GotTooShort = true ↔ 1 ≤ missing c (following c rest) := by
  have hshort : has utf8GotShort utf8GotTooShort = true := by decide
  have hnon : has utf8GotNonContinuation utf8GotTooShort = true := by decide
  have hover : has utf8GotOverflow utf8GotTooShort = false := by decide
  have hlong : has (if has flags utf8AllowLongAndItsValue then utf8GotLongWithValue
      else utf8GotLong) utf8GotTooShort = false := by
    split_ifs <;> decide
  rw [hx.problems, hshort, hnon, hover, hlong, missing_following h]
  simp

theorem Found.overflow_iff {x : Examined} (hx : Found flags c rest x) :
    has x.possibleProblems utf8GotOverflow = true ↔ Overflows c (following c rest) := by
  have hshort : has utf8GotShort utf8GotOverflow = false := by decide
  have hnon : has utf8GotNonContinuation utf8GotOverflow = false := by decide
  have hover : has utf8GotOverflow utf8GotOverflow = true := by decide
  have hlong : has (if has flags utf8AllowLongAndItsValue then utf8GotLongWithValue
      else utf8GotLong) utf8GotOverflow = false := by
    split_ifs <;> decide
  rw [hx.problems, hshort, hnon, hover, hlong]
  simp

theorem not_tolerated_of_no_fill {x : Examined} (hx : Found flags c rest x)
    (h : 0xC0 ≤ c.toNat) (hmissing : 1 ≤ missing c (following c rest))
    (hfill : has x.flags (~~~(utf8DisallowNonchar ||| utf8WarnNonchar)) = false) :
    ¬ Tolerated flags c rest := by
  have hnone (p : Nat) (hp : p < 32) (hne : p ≠ 13)
      (hset : (~~~(utf8DisallowNonchar ||| utf8WarnNonchar)).getLsbD p = true) :
      has flags (bit p) = false := by
    rw [← hx.has_flag hp hne, has_bit hp, Bool.eq_false_iff]
    intro hflag
    rw [Bool.eq_false_iff, Ne, has_iff] at hfill
    exact hfill ⟨p, hp, hflag, hset⟩
  intro htolerated
  rcases (missing_following h rest).1 hmissing with hm | hm
  · have hflag := hnone 3 (by decide) (by decide) (by decide)
    exact Bool.false_ne_true (hflag.symm.trans (htolerated.1 hm))
  · have hflag := hnone 4 (by decide) (by decide) (by decide)
    exact Bool.false_ne_true (hflag.symm.trans (htolerated.2.1 hm))

theorem Follows.of_flags {m flags' : U32} (h : Follows m flags)
    (hkept : ∀ p < 32, p ≠ 13 → flags'.getLsbD p = flags.getLsbD p) : Follows m flags' := by
  have hflag (p : Nat) (hp : p < 32) (hne : p ≠ 13) : has flags' (bit p) = has flags (bit p) := by
    rw [has_bit hp, has_bit hp, hkept p hp hne]
  exact ⟨h.surrogate.trans (hflag 5 (by decide) (by decide)).symm,
    h.extended.trans (hflag 7 (by decide) (by decide)).symm,
    h.super.trans (hflag 9 (by decide) (by decide)).symm,
    h.nonchar.trans (hflag 11 (by decide) (by decide)).symm⟩

theorem restricted_congr {flags' : U32}
    (hkept : ∀ p < 32, p ≠ 13 → flags'.getLsbD p = flags.getLsbD p) :
    Restricted flags' c us ↔ Restricted flags c us := by
  have hflag (p : Nat) (hp : p < 32) (hne : p ≠ 13) : has flags' (bit p) = has flags (bit p) := by
    rw [has_bit hp, has_bit hp, hkept p hp hne]
  rw [Restricted, Restricted, utf8DisallowPerlExtended, utf8DisallowSurrogate, utf8DisallowSuper,
    utf8DisallowNonchar, hflag 5 (by decide) (by decide), hflag 7 (by decide) (by decide),
    hflag 9 (by decide) (by decide), hflag 11 (by decide) (by decide)]

/-- How the slow path ends for a start byte. -/
structure Ends (flags : U32) (c : U8) (rest : List U8) (flags' problems : U32) (uv : UV) :
    Prop where
  helper : utf8ToUvMsgsHelper (c :: rest) flags =
    readyToHandleErrors flags' problems uv (1 + (following c rest).length)
  kept : ∀ p < 32, p ≠ 13 → flags'.getLsbD p = flags.getLsbD p
  rejects : has problems (flags' ^^^ defaultRejects) = true ↔ ¬ AllowedStart flags c rest
  accepted : Accepted c (following c rest) → uv.toNat = value c (following c rest) ∧
    ∀ m, Follows m flags → (has problems m = true ↔ Restricted flags c (following c rest))

theorem Accepted.not_overlong (h : Accepted c us) : ¬ Overlong c us := by
  intro hlong
  have hlt := (h.1.forall_append fun us' => width (value c us') < utf8Skip c).1 hlong
  rw [h.1.width_lt_iff] at hlt
  exact Nat.not_lt.2 h.2.1 hlt

theorem Accepted.not_overflows (h : Accepted c us) : ¬ Overflows c us := by
  intro hover
  exact Nat.not_lt.2 h.2.2 ((h.1.forall_append fun us' => maxLegalCP < value c us').1 hover)

theorem helper_ends (h : 0xC0 ≤ c.toNat) (hhangul : isHangulEDUtf8Safe (c :: rest) = false) :
    ∃ flags' problems uv, Ends flags c rest flags' problems uv := by
  have hbegun := begun_following h rest
  have hx := examine_found h flags rest
  have hcont : ¬ isContinuation c = true := fun hc => by
    have hrange := (isContinuation_iff c).1 hc
    omega
  have hhelper : utf8ToUvMsgsHelper (c :: rest) flags =
      if 0xED ≤ c.toNat ∧ has (examine flags c rest).flags
          (utf8DisallowIllegalInterchange ||| utf8WarnIllegalInterchange) then
        readyToHandleErrors (examine flags c rest).flags
          (problematic (examine flags c rest).flags (examine flags c rest).possibleProblems
            (examine flags c rest).uv c (examine flags c rest).curlen (utf8Skip c)
            (examine flags c rest).overlongDetectLength).1
          (problematic (examine flags c rest).flags (examine flags c rest).possibleProblems
            (examine flags c rest).uv c (examine flags c rest).curlen (utf8Skip c)
            (examine flags c rest).overlongDetectLength).2 (examine flags c rest).curlen
      else readyToHandleErrors (examine flags c rest).flags (examine flags c rest).possibleProblems
        (examine flags c rest).uv (examine flags c rest).curlen := by
    rw [utf8ToUvMsgsHelper, hhangul, if_neg Bool.false_ne_true]
    dsimp only
    rw [if_neg hcont]
  generalize examine flags c rest = x at hx hhelper
  have hnone (haccepted : Accepted c (following c rest)) (m : U32) :
      ¬ has x.possibleProblems m = true ∨ 1 ≤ missing c (following c rest) := by
    by_cases hmissing : 1 ≤ missing c (following c rest)
    · exact .inr hmissing
    · have hshort := mt (missing_following h rest).2 hmissing
      rw [not_or] at hshort
      left
      rw [hx.problems]
      simp only [hshort.1, hshort.2, haccepted.not_overlong, haccepted.not_overflows, false_and,
        or_self, not_false_eq_true]
  have hwhole (haccepted : Accepted c (following c rest)) :
      ¬ 1 ≤ missing c (following c rest) := by
    have hlength := haccepted.1.length
    rw [missing]
    omega
  have hrejects := hx.rejects_iff
  rw [hx.read] at hhelper
  by_cases hasked : 0xED ≤ c.toNat ∧
      has x.flags (utf8DisallowIllegalInterchange ||| utf8WarnIllegalInterchange) = true
  · rw [if_pos hasked] at hhelper
    have hproblems {m : U32} (hm : Follows m x.flags)
        (hfill : 1 ≤ missing c (following c rest) →
          has x.flags (~~~(utf8DisallowNonchar ||| utf8WarnNonchar)) = true) :=
      hbegun.problematic_has hasked.1 hm hx.overflow_iff (hx.tooShort_iff h) hx.overlong hfill
        hx.codePoint
    refine ⟨_, _, _, hhelper, hx.kept, ?_, fun haccepted => ⟨?_, fun m hm => ?_⟩⟩
    · by_cases hfill : 1 ≤ missing c (following c rest) →
          has x.flags (~~~(utf8DisallowNonchar ||| utf8WarnNonchar)) = true
      · rw [hproblems (hx.follows.of_flags hx.kept) hfill, hrejects, restricted_congr hx.kept,
          AllowedStart, not_and_or, not_not]
      · rw [Classical.not_imp, Bool.not_eq_true] at hfill
        have hno := not_tolerated_of_no_fill hx h hfill.1 hfill.2
        exact iff_of_true (problematic_mono (hrejects.2 hno)) fun hall => hno hall.1
    · have hshort : has x.possibleProblems utf8GotTooShort = false := by
        rw [Bool.eq_false_iff, Ne, hx.tooShort_iff h]
        exact hwhole haccepted
      rw [problematic_value hshort]
      exact hx.codePoint haccepted.not_overflows
    · rw [hproblems (hm.of_flags hx.kept) fun hmissing => absurd hmissing (hwhole haccepted),
        restricted_congr hx.kept]
      exact or_iff_right ((hnone haccepted m).resolve_right (hwhole haccepted))
  · rw [if_neg hasked] at hhelper
    have hrestricted : ¬ Restricted flags c (following c rest) := by
      by_cases hlow : c.toNat < 0xED
      · exact hbegun.not_restricted hlow
      · rw [← restricted_congr hx.kept]
        apply not_restricted_of_flags
        rw [Bool.eq_false_iff]
        exact fun hflags => hasked ⟨Nat.not_lt.1 hlow, hflags⟩
    refine ⟨_, _, _, hhelper, hx.kept, ?_, fun haccepted => ⟨?_, fun m hm => ?_⟩⟩
    · rw [hrejects, AllowedStart, not_and_or, or_iff_left (not_not.2 hrestricted)]
    · exact hx.codePoint haccepted.not_overflows
    · exact iff_of_false ((hnone haccepted m).resolve_right (hwhole haccepted)) hrestricted

end XPerl.Utf8
