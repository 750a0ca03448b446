import XPerl.Numeric.Scanning

/-! `grok_uint_by_base` where it discards digits instead of overflowing. -/

namespace XPerl.Numeric

open XPerl.Framework XPerl.Framework.Separated XPerl.Framework.PlaceValue

variable {NV : Type} {b : Base} {flags : ScanFlags} {t kept rest kept' rest' : List UInt8}
  {c c' : UInt8}

def overflowPoint (b : Base) (flags : ScanFlags) (s : List UInt8) : Option (List UInt8) := do
  match ← switches b flags s (s.length + 1) s with
  | .loop accumulated s =>
    match ← parseLoop b flags.underscores base16MaxDiv accumulated s with
    | .overflowed _ _ s => some s
    | .done _ _ => none
  | _ => none

def discardedDigits (b : Base) (flags : ScanFlags) (s : List UInt8) : Nat :=
  ((overflowPoint b flags s).getD []).countP b.isCC

theorem IsNumber.run_eq (ht : IsNumber b flags t) : (b.script flags.underscores).run t = t :=
  run_eq_self ht.numerals

theorem isNumber_filter (b : Base) (flags : ScanFlags) (t : List UInt8) :
    IsNumber b flags (t.filter b.isCC) := by
  have hdigits : ∀ d ∈ t.filter b.isCC, b.isCC d = true := fun d hd => (List.mem_filter.1 hd).2
  refine ⟨numerals_of_digits hdigits, ?_⟩
  generalize t.filter b.isCC = s at hdigits
  cases s with
  | nil => rfl
  | cons d s =>
    have hne : (d == underscore) = false := by
      rw [beq_eq_false_iff_ne]
      rintro rfl
      have hd := hdigits _ List.mem_cons_self
      rw [isCC_underscore] at hd
      cases hd
    rw [mayStart, hne, Bool.and_false]
    rfl

theorem numberValue_filter (b : Base) (t : List UInt8) :
    numberValue b (t.filter b.isCC) = numberValue b t := by
  have hdigits : (b.script true).digits (t.filter b.isCC) = (b.script true).digits t :=
    digits_filter
  rw [numberValue, numberValue, Script.read, Script.read, hdigits]

theorem Overflow.filter (h : Overflow b t kept c rest) :
    Overflow b (t.filter b.isCC) (kept.filter b.isCC) c (rest.filter b.isCC) where
  split := by rw [h.split, List.filter_append, List.filter_cons_of_pos h.digit]
  digit := h.digit
  fits := by rw [numberValue_filter]; exact h.fits
  exceeds := by rw [numberValue_filter]; exact h.exceeds

theorem Overflow.length_le (h : Overflow b t kept c rest) (h' : Overflow b t kept' c' rest') :
    kept'.length ≤ kept.length := by
  by_contra hlt
  have heq : kept ++ c :: rest = kept' ++ c' :: rest' := h.split.symm.trans h'.split
  rcases List.append_eq_append_iff.1 heq with ⟨a, hkept, hrest⟩ | ⟨a, hkept, -⟩
  · cases a with
    | nil =>
      rw [List.append_nil] at hkept
      rw [hkept] at hlt
      omega
    | cons d a =>
      obtain ⟨rfl, -⟩ := List.cons.inj hrest
      have hover : Overflow b kept' kept c a := ⟨hkept, h.digit, h.fits, h.exceeds⟩
      have hlarge := hover.large
      have hfits := h'.fits
      omega
  · rw [hkept, List.length_append] at hlt
    omega

theorem Overflow.unique (h : Overflow b t kept c rest) (h' : Overflow b t kept' c' rest') :
    kept = kept' ∧ c = c' ∧ rest = rest' := by
  have hlen := Nat.le_antisymm (h'.length_le h) (h.length_le h')
  have hsplit := List.append_inj (h.split.symm.trans h'.split) hlen
  obtain ⟨hc, hrest⟩ := List.cons.inj hsplit.2
  exact ⟨hsplit.1, hc, hrest⟩

theorem overflowPoint_spec (ht : IsNumber b flags t) :
    (overflowPoint b flags t = none ∧ numberValue b t < 2 ^ 64) ∨
      ∃ kept c rest, overflowPoint b flags t = some (c :: rest) ∧ Overflow b t kept c rest := by
  obtain ⟨jump, hjump, hne, hspec⟩ := switches_spec (b := b) flags
    (Nat.lt_succ_self t.length) (Nat.le_refl t.length) (fun _ => ht.first)
  have hrun := ht.run_eq
  unfold overflowPoint
  rw [hjump]
  cases jump with
  | redoSwitch u => exact absurd rfl (hne u)
  | returned accumulated =>
    refine Or.inl ⟨rfl, ?_⟩
    have hread : accumulated.toNat = numberValue b t := hrun ▸ hspec.2
    rw [← hread]
    exact accumulated.toNat_lt
  | doneParse accumulated u =>
    refine Or.inl ⟨rfl, ?_⟩
    have hread : accumulated.toNat = numberValue b t := hrun ▸ hspec.2
    rw [← hread]
    exact accumulated.toNat_lt
  | loop accumulated u =>
    obtain ⟨last, hlast, hloop⟩ := parseLoop_spec (s := u) flags.underscores accumulated
      (Or.inl rfl : IsLimit b base16MaxDiv)
    have hwhole := hloop.after hspec
    simp only [Option.bind_eq_bind, Option.bind_some, hlast]
    cases last with
    | done accumulated u =>
      refine Or.inl ⟨rfl, ?_⟩
      have hread : accumulated.toNat = numberValue b t := hrun ▸ hwhole.2
      rw [← hread]
      exact accumulated.toNat_lt
    | overflowed maxDiv accumulated u =>
      obtain ⟨-, c, rest, rfl, hc, hadv, hlarge⟩ := hwhole
      obtain ⟨kept, hsplit, -, hread⟩ := hadv.between
      have hvalue : numberValue b kept = accumulated.toNat := hread.symm
      exact Or.inr ⟨kept, c, rest, rfl, hsplit, hc, by rw [hvalue]; exact accumulated.toNat_lt,
        by rw [hvalue]; exact hlarge⟩

theorem discardedDigits_filter (ht : IsNumber b flags t) :
    discardedDigits b flags (t.filter b.isCC) = discardedDigits b flags t := by
  unfold discardedDigits
  have hvalue := numberValue_filter b t
  rcases overflowPoint_spec ht with ⟨hnone, hfits⟩ | ⟨kept, c, rest, hsome, hover⟩
  · rcases overflowPoint_spec (isNumber_filter b flags t) with ⟨hnone', -⟩ | ⟨_, _, _, -, hover'⟩
    · rw [hnone, hnone']
    · have hlarge := hover'.large
      omega
  · rcases overflowPoint_spec (isNumber_filter b flags t) with
      ⟨-, hfits⟩ | ⟨kept', c', rest', hsome', hover'⟩
    · have hlarge := hover.large
      omega
    · obtain ⟨-, rfl, hrest⟩ := hover.filter.unique hover'
      rw [hsome, hsome', Option.getD_some, Option.getD_some, ← hrest]
      simp [List.countP_cons, List.countP_filter]

theorem base_half (b : Base) :
    b.value.toNat = 2 * (b.value / 2).toNat ∧ 0 < (b.value / 2).toNat := by
  cases b <;> decide

theorem isCC_worth_zero {d : UInt8} (hd : b.isCC d = true) :
    d = 0x30 ↔ (xdigitValue d).toNat = 0 := by
  have hall : ∀ d : UInt8,
      (!b.isCC d || (decide (d = 0x30) == decide ((xdigitValue d).toNat = 0))) = true := by
    refine forall_byte ?_
    cases b <;> decide +kernel
  simpa [hd] using hall d

theorem foldl_breakTie_half (s : List UInt8) :
    s.foldl breakTie .roundToEvenIfHalf =
      if ∃ d ∈ s, d ≠ 0x30 then .yesRoundUp else .roundToEvenIfHalf := by
  induction s with
  | nil => simp
  | cons d s ih =>
    rw [List.foldl_cons]
    by_cases hd : d = 0x30
    · have hstep : breakTie .roundToEvenIfHalf d = .roundToEvenIfHalf := by simp [breakTie, hd]
      rw [hstep, ih]
      simp [hd]
    · have hstep : breakTie .roundToEvenIfHalf d = .yesRoundUp := by simp [breakTie, hd]
      rw [hstep, foldl_breakTie (by simp), if_pos ⟨d, List.mem_cons_self, hd⟩]

theorem le_nearestEven (base v : Nat) (ds : List Nat) :
    v ≤ nearestEven base v ds ∧ nearestEven base v ds ≤ v + 1 := by
  unfold nearestEven
  split_ifs <;> omega

theorem roundValue_half {v : UInt64} (h : v.toNat < uvMax.toNat) :
    (roundValue v .roundToEvenIfHalf).toNat = v.toNat + v.toNat % 2 := by
  have hmax : uvMax.toNat = 2 ^ 64 - 1 := rfl
  have hmod : (v % 2).toNat = v.toNat % 2 := UInt64.toNat_mod v 2
  have hone : (1 : UInt64).toNat = 1 := rfl
  have hodd : (v % 2 == 1) = decide (v.toNat % 2 = 1) := by
    rw [beq_eq_decide, decide_eq_decide, ← UInt64.toNat_inj, hmod, hone]
  rw [roundValue, hodd]
  by_cases hv : v.toNat % 2 = 1
  · rw [if_pos (by simp [hv]), UInt64.toNat_add]
    omega
  · rw [if_neg (by simp [hv])]
    omega

theorem roundValue_spec (v : UInt64) {c : UInt8} (hc : b.isCC c = true) {tail : List UInt8}
    (htail : ∀ d ∈ tail, b.isCC d = true) :
    (roundValue v (tail.foldl breakTie (firstRounding b v c))).toNat =
      min (nearestEven b.value.toNat v.toNat ((b.script true).digits (c :: tail))) uvMax.toNat := by
  have hlt := v.toNat_lt
  have hmax : uvMax.toNat = 2 ^ 64 - 1 := rfl
  by_cases hfull : v < uvMax
  · rw [UInt64.lt_iff_toNat_lt] at hfull
    obtain ⟨hhalf, -⟩ := base_half b
    have hdigit : (b.script true).digit c = true := hc
    have hnear := le_nearestEven b.value.toNat v.toNat ((b.script true).digits (c :: tail))
    have hnearest : nearestEven b.value.toNat v.toNat ((b.script true).digits (c :: tail)) =
        if (xdigitValue c).toNat < (b.value / 2).toNat then v.toNat
        else if (b.value / 2).toNat < (xdigitValue c).toNat ∨
          ∃ x ∈ (b.script true).digits tail, x ≠ 0 then v.toNat + 1
        else v.toNat + v.toNat % 2 := by
      rw [digits_cons_digit hdigit]
      exact nearestEven_cons hhalf numeral_worths (worth_lt b c hc)
    have hbroken : (∃ x ∈ (b.script true).digits tail, x ≠ 0) ↔ ∃ d ∈ tail, d ≠ 0x30 := by
      constructor
      · rintro ⟨x, hx, hne⟩
        obtain ⟨d, hd, rfl⟩ := List.mem_map.1 hx
        have hmem := (List.mem_filter.1 hd).1
        exact ⟨d, hmem, fun hz => hne ((isCC_worth_zero (htail d hmem)).1 hz)⟩
      · rintro ⟨d, hd, hne⟩
        exact ⟨_, List.mem_map.2 ⟨d, List.mem_filter.2 ⟨hd, htail d hd⟩, rfl⟩,
          fun hz => hne ((isCC_worth_zero (htail d hd)).2 hz)⟩
    have hup : (v + 1).toNat = v.toNat + 1 := by
      rw [UInt64.toNat_add]
      have hone : (1 : UInt64).toNat = 1 := rfl
      omega
    have hfirst : firstRounding b v c =
        if (xdigitValue c).toNat < (b.value / 2).toNat then .dontRound
        else if (b.value / 2).toNat < (xdigitValue c).toNat then .yesRoundUp
        else .roundToEvenIfHalf := by
      rw [firstRounding, if_pos (UInt64.lt_iff_toNat_lt.2 hfull)]
      simp only [UInt64.lt_iff_toNat_lt, gt_iff_lt]
    rw [Nat.min_eq_left (by omega), hnearest, hfirst]
    rcases Nat.lt_trichotomy (xdigitValue c).toNat (b.value / 2).toNat with hlow | hhalf | hhigh
    · rw [if_pos hlow, if_pos hlow, foldl_breakTie (by simp)]
      rfl
    · rw [if_neg (by omega), if_neg (by omega), if_neg (by omega), foldl_breakTie_half]
      by_cases hex : ∃ d ∈ tail, d ≠ 0x30
      · rw [if_pos hex, if_pos (Or.inr (hbroken.2 hex))]
        exact hup
      · have hnone : ¬((b.value / 2).toNat < (xdigitValue c).toNat ∨
            ∃ x ∈ (b.script true).digits tail, x ≠ 0) := by
          rw [hbroken, not_or]
          exact ⟨by omega, hex⟩
        rw [if_neg hex, if_neg hnone, roundValue_half hfull]
    · have hge : ¬(xdigitValue c).toNat < (b.value / 2).toNat := by omega
      rw [if_neg hge, if_neg hge, if_pos hhigh, if_pos (Or.inl hhigh), foldl_breakTie (by simp)]
      exact hup
  · have hv : v = uvMax := by
      rw [← UInt64.toNat_inj]
      rw [UInt64.lt_iff_toNat_lt] at hfull
      omega
    have hnear := le_nearestEven b.value.toNat v.toNat ((b.script true).digits (c :: tail))
    have hfirst : firstRounding b v c = .dontRound := by rw [firstRounding, if_neg hfull]
    rw [hfirst, foldl_breakTie (by simp), Nat.min_eq_right (by rw [← hv]; exact hnear.1), ← hv]
    rfl

/-- A tie of an even value whose digit behind the first is an underscore, which the source takes for
one that is not zero. -/
structure SplitTie (b : Base) (kept : List UInt8) (c : UInt8) (rest : List UInt8) : Prop where
  even : numberValue b kept % 2 = 0
  half : (xdigitValue c).toNat = (b.value / 2).toNat
  zeros : ∀ d ∈ rest, b.isCC d = true → d = 0x30
  split : ∃ d ∈ rest, b.isCC d = false

theorem firstRounding_half {v : UInt64} (h : firstRounding b v c = .roundToEvenIfHalf) :
    v.toNat < uvMax.toNat ∧ (xdigitValue c).toNat = (b.value / 2).toNat := by
  unfold firstRounding at h
  split_ifs at h with hfull hlow hhigh
  rw [gt_iff_lt, UInt64.lt_iff_toNat_lt] at hhigh
  rw [UInt64.lt_iff_toNat_lt] at hfull hlow
  exact ⟨hfull, by omega⟩

theorem roundValue_filter (hsplit : ¬SplitTie b kept c rest)
    {v : UInt64} (hv : v.toNat = numberValue b kept) :
    roundValue v (rest.foldl breakTie (firstRounding b v c)) =
      roundValue v ((rest.filter b.isCC).foldl breakTie (firstRounding b v c)) := by
  by_cases hfirst : firstRounding b v c = .roundToEvenIfHalf
  · rw [hfirst, foldl_breakTie_half, foldl_breakTie_half]
    by_cases hdigit : ∃ d ∈ rest.filter b.isCC, d ≠ 0x30
    · obtain ⟨d, hd, hne⟩ := hdigit
      rw [if_pos ⟨d, (List.mem_filter.1 hd).1, hne⟩, if_pos ⟨d, hd, hne⟩]
    · rw [if_neg hdigit]
      by_cases hany : ∃ d ∈ rest, d ≠ 0x30
      · obtain ⟨hfull, hhalf⟩ := firstRounding_half hfirst
        have hzeros : ∀ d ∈ rest, b.isCC d = true → d = 0x30 := fun d hd hcc => by
          by_contra hne
          exact hdigit ⟨d, List.mem_filter.2 ⟨hd, hcc⟩, hne⟩
        have hother : ∃ d ∈ rest, b.isCC d = false := by
          obtain ⟨d, hd, hne⟩ := hany
          refine ⟨d, hd, ?_⟩
          by_contra hcc
          exact hne (hzeros d hd (by simpa using hcc))
        -- an odd value is rounded up either way
        have hodd : v.toNat % 2 = 1 := by
          have hnot : ¬numberValue b kept % 2 = 0 := fun heven =>
            hsplit ⟨heven, hhalf, hzeros, hother⟩
          omega
        rw [if_pos hany, ← UInt64.toNat_inj, roundValue_half hfull, hodd]
        have hone : (1 : UInt64).toNat = 1 := rfl
        have hmax : uvMax.toNat = 2 ^ 64 - 1 := rfl
        change (v + 1).toNat = v.toNat + 1
        rw [UInt64.toNat_add]
        omega
      · rw [if_neg hany]
  · rw [foldl_breakTie hfirst, foldl_breakTie hfirst]

theorem discarded_outcome (f : Floats NV) (approximation : Bool)
    (hflags : flags.discardInsteadOfOverflow = true) (ht : IsNumber b flags t) :
    ∃ scanned, grokUintByBase f b flags approximation 0 t = some scanned ∧
      scanned.len = t.length ∧
      ((numberValue b t < 2 ^ 64 ∧ scanned.value.toNat = numberValue b t ∧
        scanned.flags.discardInsteadOfOverflow = false) ∨
      ∃ kept c rest, Overflow b t kept c rest ∧
        scanned.value = roundValue (UInt64.ofNat (numberValue b kept))
          (rest.foldl breakTie (firstRounding b (UInt64.ofNat (numberValue b kept)) c)) ∧
        scanned.flags.discardInsteadOfOverflow = true) := by
  obtain ⟨scanned, hscan, hlen, houtcome⟩ :=
    grokUintByBase_outcome f b flags approximation (Nat.zero_le t.length)
  have htext : numberText b flags t = t := by
    rw [numberText, if_pos ht.first, ht.run_eq]
  rw [List.drop_zero, htext] at hlen houtcome
  refine ⟨scanned, hscan, by rw [hlen, Nat.zero_add], ?_⟩
  cases houtcome with
  | exact hvalue _ hflag =>
    refine Or.inl ⟨?_, hvalue, hflag⟩
    rw [← hvalue]
    exact scanned.value.toNat_lt
  | tooLarge _ hset => rw [hflags] at hset; cases hset
  | discarded hover _ hvalue _ hflag => exact Or.inr ⟨_, _, _, hover, hvalue, hflag⟩

/-- What a scan of `t` that discards digits gives, beside the scan `plain` of its digits alone. -/
structure Discards (b : Base) (flags : ScanFlags) (t : List UInt8) (scanned plain : Scanned NV) :
    Prop where
  lens : scanned.len = t.length ∧ plain.len = (t.filter b.isCC).length
  flag : scanned.flags.discardInsteadOfOverflow = plain.flags.discardInsteadOfOverflow
  count : discardedDigits b flags (t.filter b.isCC) = discardedDigits b flags t
  fits : numberValue b t < 2 ^ 64 →
    scanned.value = plain.value ∧ plain.value.toNat = numberValue b t
  rounded : ∀ kept c rest, Overflow b t kept c rest →
    plain.value.toNat = min (nearestEven b.value.toNat (numberValue b kept)
      ((b.script true).digits (c :: rest))) uvMax.toNat
  same : ∀ kept c rest, Overflow b t kept c rest → ¬SplitTie b kept c rest →
    scanned.value = plain.value

theorem discards_digits (f : Floats NV) (b : Base) (flags : ScanFlags) (approximation : Bool)
    (t : List UInt8) (hflags : flags.discardInsteadOfOverflow = true) (ht : IsNumber b flags t) :
    ∃ scanned plain, grokUintByBase f b flags approximation 0 t = some scanned ∧
      grokUintByBase f b flags approximation 0 (t.filter b.isCC) = some plain ∧
      Discards b flags t scanned plain := by
  obtain ⟨scanned, hscan, hlen, hscanned⟩ := discarded_outcome f approximation hflags ht
  obtain ⟨plain, hplain, hlen', hplained⟩ :=
    discarded_outcome f approximation hflags (isNumber_filter b flags t)
  have hvalue := numberValue_filter b t
  refine ⟨scanned, plain, hscan, hplain, ?_⟩
  rcases hscanned with ⟨hfits, hv, hflag⟩ | ⟨kept, c, rest, hover, hv, hflag⟩
  · rcases hplained with ⟨-, hv', hflag'⟩ | ⟨_, _, _, hover', -⟩
    · have hnone : ∀ kept c rest, ¬Overflow b t kept c rest := fun kept c rest hover => by
        have hlarge := hover.large
        omega
      refine ⟨⟨hlen, hlen'⟩, hflag.trans hflag'.symm, discardedDigits_filter ht, fun _ => ?_,
        fun kept c rest hover => absurd hover (hnone kept c rest),
        fun kept c rest hover => absurd hover (hnone kept c rest)⟩
      rw [hvalue] at hv'
      exact ⟨UInt64.toNat_inj.1 (hv.trans hv'.symm), hv'⟩
    · have hlarge := hover'.large
      omega
  · rcases hplained with ⟨hfits, -⟩ | ⟨kept', c', rest', hover', hv', hflag'⟩
    · have hlarge := hover.large
      omega
    · obtain ⟨rfl, rfl, rfl⟩ := hover.filter.unique hover'
      have hkept := numberValue_filter b kept
      have hofNat : (UInt64.ofNat (numberValue b kept)).toNat = numberValue b kept := by
        rw [UInt64.toNat_ofNat']
        exact Nat.mod_eq_of_lt hover.fits
      rw [hkept] at hv'
      refine ⟨⟨hlen, hlen'⟩, hflag.trans hflag'.symm, discardedDigits_filter ht,
        fun hfits => ?_, fun kept₂ c₂ rest₂ h₂ => ?_, fun kept₂ c₂ rest₂ h₂ hsplit => ?_⟩
      · have hlarge := hover.large
        omega
      · obtain ⟨rfl, rfl, rfl⟩ := hover.unique h₂
        have htail : ∀ d ∈ rest.filter b.isCC, b.isCC d = true := fun d hd =>
          (List.mem_filter.1 hd).2
        have hdigit : (b.script true).digit c = true := hover.digit
        have hdigits : (b.script true).digits (c :: rest.filter b.isCC) =
            (b.script true).digits (c :: rest) := by
          rw [digits_cons_digit hdigit, digits_cons_digit hdigit]
          exact congrArg _ digits_filter
        rw [hv', roundValue_spec _ hover.digit htail, hofNat, hdigits]
      · obtain ⟨rfl, rfl, rfl⟩ := hover.unique h₂
        rw [hv, hv', roundValue_filter hsplit hofNat]

/-- A hexadecimal digit behind UV_MAX, which is not rounded up; and a tie in base 10 that an
underscore breaks. -/
theorem discards_not_nearest :
    ((grokUintByBase noFloats .sixteen { discardInsteadOfOverflow := true } false 0
      (List.replicate 17 0x46)).map Scanned.value = some uvMax ∧
      Overflow .sixteen (List.replicate 17 0x46) (List.replicate 16 0x46) 0x46 [] ∧
      nearestEven 16 (numberValue .sixteen (List.replicate 16 0x46)) [15] ≠ uvMax.toNat) ∧
    (grokUintByBase noFloats .ten
      { allowUnderscores := true, discardInsteadOfOverflow := true } false 0
      (0x39 :: List.replicate 18 0x30 ++ [0x35, 0x5F, 0x30])).map Scanned.value =
        some 9000000000000000001 ∧
    (grokUintByBase noFloats .ten
      { allowUnderscores := true, discardInsteadOfOverflow := true } false 0
      (0x39 :: List.replicate 18 0x30 ++ [0x35, 0x30])).map Scanned.value =
        some 9000000000000000000 := by
  refine ⟨⟨by decide +kernel, ⟨rfl, by decide, by decide +kernel, by decide +kernel⟩,
    by decide +kernel⟩, by decide +kernel, by decide +kernel⟩

/-- Half above UV_MAX - 1, with an underscore before the digit that is dropped. -/
theorem discards_digits_half :
    ∃ scanned plain, grokUintByBase noFloats .two
      { allowUnderscores := true, discardInsteadOfOverflow := true } false 0
      (List.replicate 63 0x31 ++ [0x30, 0x5F, 0x31]) = some scanned ∧
      Discards .two { allowUnderscores := true, discardInsteadOfOverflow := true }
        (List.replicate 63 0x31 ++ [0x30, 0x5F, 0x31]) scanned plain := by
  have ht : IsNumber .two { allowUnderscores := true, discardInsteadOfOverflow := true }
      (List.replicate 63 0x31 ++ [0x30, 0x5F, 0x31]) := by
    have hrun : (Base.two.script true).run (List.replicate 63 0x31 ++ [0x30, 0x5F, 0x31]) =
        List.replicate 63 0x31 ++ [0x30, 0x5F, 0x31] := by decide +kernel
    refine ⟨?_, by decide⟩
    have hnumerals := numerals_run (n := Base.two.script true)
      (s := List.replicate 63 0x31 ++ [0x30, 0x5F, 0x31])
    rwa [hrun] at hnumerals
  obtain ⟨scanned, plain, hscan, -, hdiscards⟩ :=
    discards_digits noFloats .two _ false _ rfl ht
  exact ⟨scanned, plain, hscan, hdiscards⟩

end XPerl.Numeric
