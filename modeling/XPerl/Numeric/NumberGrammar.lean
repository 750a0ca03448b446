import XPerl.Numeric.InfNanText

/-! `grok_number_flags` accepts its grammar. -/

namespace XPerl.Numeric

section Ending

variable {number : List UInt8 → Option NumberFlags} {trailing : Bool} {pv d s t : List UInt8}
  {numtype infnan : NumberFlags} {value : Option UInt64}

theorem grokEnd_spaces (hs : Spaces s) :
    grokEnd number trailing pv d numtype value s = some (numtype, value) := by
  have hdrop : s.dropWhile isSPACE = [] := List.dropWhile_eq_nil_iff.2 hs
  simp [grokEnd, hdrop]

theorem dropWhile_not_empty (hs : ¬Spaces s) : ¬(s.dropWhile isSPACE).isEmpty = true := fun h =>
  hs (List.dropWhile_eq_nil_iff.1 (List.isEmpty_iff.1 h))

theorem grokEnd_zeroButTrue (hs : ¬Spaces s) (hpv : pv = zeroButTrue) :
    grokEnd number trailing pv d numtype value s = some ({ inUV := true }, some 0) := by
  unfold grokEnd
  dsimp only
  rw [if_neg (dropWhile_not_empty hs), if_pos (beq_iff_eq.2 hpv)]

/-- The text behind white space may be an infinity or a NaN. -/
def maybeInfnan (s : List UInt8) : Bool :=
  2 < (s.dropWhile isSPACE).length && startsInfnan (peek (s.dropWhile isSPACE))

theorem grokEnd_text (hs : ¬Spaces s) (hpv : pv ≠ zeroButTrue) (hinf : maybeInfnan s = false) :
    grokEnd number trailing pv d numtype value s =
      some (if trailing then { numtype with trailing := true } else {}, value) := by
  have hno : ¬(2 < (s.dropWhile isSPACE).length && startsInfnan (peek (s.dropWhile isSPACE))) =
      true := by
    rw [maybeInfnan] at hinf
    rw [hinf]
    exact Bool.false_ne_true
  unfold grokEnd
  dsimp only
  rw [if_neg (dropWhile_not_empty hs), if_neg (by simpa using hpv), if_neg hno]
  split_ifs <;> rfl

theorem grokEnd_infnan (hs : ¬Spaces s) (hpv : pv ≠ zeroButTrue) (hinf : maybeInfnan s = true)
    (hgrok : grokInfnan number d = some (infnan, t)) :
    grokEnd number trailing pv d numtype value s =
      some (if infnan.trailing && !trailing then {}
        else if infnan.infinity then numtype.or infnan
        else if infnan.nan then { numtype.or infnan with neg := false } else {}, value) := by
  unfold grokEnd
  dsimp only
  rw [if_neg (dropWhile_not_empty hs), if_neg (by simpa using hpv), ← maybeInfnan, if_pos hinf,
    hgrok]
  simp only [Option.bind_eq_bind, Option.bind_some]
  split_ifs <;> rfl

end Ending

section Beginnings

variable {before d : List UInt8} {sign : Sign} {n : Number} {behind : List UInt8}

theorem Starts.zeroButTrue (h : Starts before sign d)
    (hpv : before ++ (sign.text ++ d) = zeroButTrue) : peek d = 0x30 := by
  cases before with
  | nil =>
    cases sign with
    | none =>
      have hd : d = XPerl.Numeric.zeroButTrue := hpv
      rw [hd]
      rfl
    | plus => cases hpv
    | minus => cases hpv
  | cons c before =>
    have hspace : isSPACE c = true := h.spaces c List.mem_cons_self
    obtain ⟨rfl, -⟩ := List.cons.inj hpv
    cases hspace

theorem starts_of_first {c : UInt8} (hspaces : Spaces before) (hd : peek d = c) (hne : d ≠ [])
    (hspace : isSPACE c = false) (hplus : c ≠ 0x2B) (hminus : c ≠ 0x2D) :
    Starts before sign d :=
  ⟨hspaces, fun _ => by rw [hd]; exact ⟨hspace, hplus, hminus⟩, fun _ => hne⟩

theorem starts_number (hspaces : Spaces before) (n : Number) (behind : List UInt8) :
    Starts before sign (n.text ++ behind) := by
  rcases number_first n behind with h | ⟨s, hs, -⟩
  · have hne : n.text ++ behind ≠ [] := by
      intro hnil
      rw [hnil] at h
      cases h
    have hall : ∀ c : UInt8, (!isDIGIT c || (!isSPACE c && c != 0x2B && c != 0x2D)) = true :=
      forall_byte (by decide +kernel)
    have hplain : (isSPACE (peek (n.text ++ behind)) = false ∧ peek (n.text ++ behind) ≠ 0x2B) ∧
        peek (n.text ++ behind) ≠ 0x2D := by
      simpa [h] using hall (peek (n.text ++ behind))
    exact starts_of_first hspaces rfl hne hplain.1.1 hplain.1.2 hplain.2
  · rw [hs]
    exact starts_of_first (c := 0x2E) hspaces rfl (List.cons_ne_nil _ _) (by decide) (by decide)
      (by decide)

theorem grokNumberFuel_plain (fuel : Nat) (trailing : Bool) (h : Starts before sign d)
    (hdigit : isDIGIT (peek d) = false) (hpoint : peek d ≠ 0x2E) :
    grokNumberFuel (fuel + 1) trailing (before ++ (sign.text ++ d)) =
      grokEnd (fun content => (grokNumberFuel fuel true content).map Prod.fst) trailing
        (before ++ (sign.text ++ d)) d { neg := sign.neg } none d := by
  have hradix : grokNumericRadix d = none := by
    cases d with
    | nil => rfl
    | cons c d =>
      have hc : c ≠ 0x2E := hpoint
      simp [grokNumericRadix, hc]
  have hdigits : grokDigits { neg := sign.neg } d = some (.goes { neg := sign.neg } none d) := by
    rw [grokDigits, hdigit, if_neg Bool.false_ne_true, hradix]
    rfl
  have hexponent : grokExponent trailing d { neg := sign.neg } none d =
      .goes { neg := sign.neg } none d := by
    simp [grokExponent]
  rw [grokNumberFuel, grokStart_eq h]
  simp only [Option.bind_eq_bind, hdigits, Option.bind_some, hexponent]

theorem grokNumberFuel_point (fuel : Nat) (trailing : Bool) {s : List UInt8}
    (h : Starts before sign (0x2E :: s)) (hdigit : isDIGIT (peek s) = false) :
    grokNumberFuel (fuel + 1) trailing (before ++ (sign.text ++ 0x2E :: s)) =
      some ({}, none) := by
  have hdigits : grokDigits { neg := sign.neg } (0x2E :: s) = some (.returns {} none) := by
    have hpoint : isDIGIT (peek (0x2E :: s)) = false := by
      have hdot : isDIGIT 0x2E = false := by decide
      exact hdot
    have hradix : grokNumericRadix (0x2E :: s) = some s := rfl
    rw [grokDigits, hpoint, if_neg Bool.false_ne_true, hradix]
    dsimp only
    rw [hdigit, if_neg Bool.false_ne_true]
    rfl
  rw [grokNumberFuel, grokStart_eq h]
  simp only [Option.bind_eq_bind, hdigits, Option.bind_some]
  rfl

theorem grokNumberFuel_numberText (fuel : Nat) (trailing : Bool) (hspaces : Spaces before)
    (hbehind : Spaces behind) :
    grokNumberFuel (fuel + 1) trailing (before ++ (sign.text ++ (n.text ++ behind))) =
      some (n.numtype sign.neg, n.value) := by
  have hletter : atLetter behind 0x65 = false := by
    cases behind with
    | nil => rfl
    | cons c s => exact (plain_of_space (hbehind c List.mem_cons_self)).2.2.2.2
  rw [grokNumberFuel_number fuel trailing (stops_of_spaces hbehind)
    (starts_number hspaces n behind), hletter, Bool.and_false, if_neg Bool.false_ne_true,
    grokEnd_spaces hbehind]

end Beginnings

section Words

variable {before rest t : List UInt8} {sign : Sign} {hash : Hash} {word : Word}

def oneNumber (fraction : Option (List UInt8)) (h : ∀ ds, fraction = some ds → Digits ds) :
    Number where
  whole := [0x31]
  fraction := fraction
  exponent := none
  wholeDigits := by
    intro c hc
    rw [List.mem_singleton.1 hc]
    decide
  fractionDigits := h
  someDigit := Or.inl (List.cons_ne_nil _ _)

theorem starts_word (hspaces : Spaces before) (ht : Spelling hash.odh word t) :
    Starts before sign (hash.text ++ (t ++ rest)) := by
  obtain ⟨c, u, rfl, hc⟩ := ht.first
  obtain ⟨hspace, -, -, hplus, hminus, -⟩ := plain_of_startsInfnan hc
  have hone : isSPACE 0x31 = false ∧ (0x31 : UInt8) ≠ 0x2B ∧ (0x31 : UInt8) ≠ 0x2D := by decide
  cases hash with
  | without => exact starts_of_first hspaces rfl (List.cons_ne_nil _ _) hspace hplus hminus
  | short => exact starts_of_first hspaces rfl (List.cons_ne_nil _ _) hone.1 hone.2.1 hone.2.2
  | long => exact starts_of_first hspaces rfl (List.cons_ne_nil _ _) hone.1 hone.2.1 hone.2.2

/-- The flags in front of a word have nothing of an infinity or a NaN. -/
structure IsPlain (sign : Sign) (numtype : NumberFlags) : Prop where
  neg : numtype.neg = sign.neg
  infinity : numtype.infinity = false
  nan : numtype.nan = false
  greaterThanUVMax : numtype.greaterThanUVMax = false
  trailing : numtype.trailing = false

theorem grokNumberFuel_word (fuel : Nat) (sign : Sign) (rest : List UInt8)
    (hspaces : Spaces before) (ht : Spelling hash.odh word t) :
    ∃ numtype value s, IsPlain sign numtype ∧ ¬Spaces s ∧ maybeInfnan s = true ∧
      ∀ trailing, grokNumberFuel (fuel + 1) trailing
          (before ++ (sign.text ++ (hash.text ++ (t ++ rest)))) =
        grokEnd (fun content => (grokNumberFuel fuel true content).map Prod.fst) trailing
          (before ++ (sign.text ++ (hash.text ++ (t ++ rest)))) (hash.text ++ (t ++ rest)) numtype
          value s := by
  have hstarts : Starts before sign (hash.text ++ (t ++ rest)) := starts_word hspaces ht
  have hthree := ht.length
  obtain ⟨c, u, rfl, hc⟩ := ht.first
  obtain ⟨hspace, hdigit, hpoint, -⟩ := plain_of_startsInfnan hc
  have hmaybe {c : UInt8} {s : List UInt8} (hc : isSPACE c = false) (hstart : startsInfnan c = true)
      (hlen : 2 < (c :: s).length) : ¬Spaces (c :: s) ∧ maybeInfnan (c :: s) = true := by
    refine ⟨fun h => ?_, ?_⟩
    · rw [h c List.mem_cons_self] at hc
      cases hc
    · have hdrop : (c :: s).dropWhile isSPACE = c :: s := dropWhile_peek hc
      rw [maybeInfnan, hdrop, decide_eq_true hlen]
      exact hstart
  have hsharp : ¬Spaces (0x23 :: (c :: u ++ rest)) ∧
      maybeInfnan (0x23 :: (c :: u ++ rest)) = true := by
    refine hmaybe (by decide) (by decide) ?_
    simp only [List.length_cons, List.length_append] at hthree ⊢
    omega
  have hstops (n : Number) : n.Stops (0x23 :: (c :: u ++ rest)) := by
    refine ⟨?_, fun _ _ => ?_, fun _ e v h => ?_⟩
    · have h23 : isDIGIT 0x23 = false := by decide
      exact h23
    · have h23 : (0x23 : UInt8) ≠ 0x2E := by decide
      exact h23
    · have he := e.isE
      obtain ⟨h23, -⟩ := List.cons.inj h
      rw [← h23] at he
      cases he
  have hletter : atLetter (0x23 :: (c :: u ++ rest)) 0x65 = false := by
    have h23 : isAlphaFoldEq 0x23 0x65 = false := by decide
    exact h23
  have hhash (n : Number) (he : n.exponent = none) (hwhole : n.whole = [0x31])
      (htext : hash.text ++ (c :: u ++ rest) = n.text ++ 0x23 :: (c :: u ++ rest)) :
      ∃ numtype value s, IsPlain sign numtype ∧ ¬Spaces s ∧ maybeInfnan s = true ∧
        ∀ trailing, grokNumberFuel (fuel + 1) trailing
            (before ++ (sign.text ++ (hash.text ++ (c :: u ++ rest)))) =
          grokEnd (fun content => (grokNumberFuel fuel true content).map Prod.fst) trailing
            (before ++ (sign.text ++ (hash.text ++ (c :: u ++ rest))))
            (hash.text ++ (c :: u ++ rest)) numtype value s := by
    have hfits : n.fits = true := by
      rw [Number.fits, hwhole]
      decide +kernel
    have hplain : IsPlain sign (n.numtype sign.neg) := by
      refine ⟨rfl, rfl, rfl, ?_, rfl⟩
      rw [Number.numtype, hfits, Bool.not_true, Bool.and_false]
    refine ⟨n.numtype sign.neg, n.value, 0x23 :: (c :: u ++ rest), hplain, hsharp.1, hsharp.2,
      fun trailing => ?_⟩
    rw [htext] at hstarts ⊢
    rw [grokNumberFuel_number fuel trailing (hstops n) hstarts, hletter, Bool.and_false,
      if_neg Bool.false_ne_true]
  cases hash with
  | without =>
    have hlen : 2 < (c :: (u ++ rest)).length := by
      simp only [List.length_cons, List.length_append] at hthree ⊢
      omega
    refine ⟨{ neg := sign.neg }, none, c :: (u ++ rest), ⟨rfl, rfl, rfl, rfl, rfl⟩,
      (hmaybe hspace hc hlen).1, (hmaybe hspace hc hlen).2, fun trailing => ?_⟩
    exact grokNumberFuel_plain fuel trailing hstarts hdigit hpoint
  | short => exact hhash (oneNumber none fun _ h => by cases h) rfl rfl rfl
  | long =>
    have hnil : ∀ ds, some [] = some ds → Digits ds := by
      intro ds hds
      cases hds
      intro c hc
      cases hc
    exact hhash (oneNumber (some []) hnil) rfl rfl rfl

end Words

section Readings

variable {pv before d rest t : List UInt8} {sign : Sign} {fuel : Nat}

def Number.ofDigits (ds : List UInt8) (hds : Digits ds) (hne : ds ≠ []) : Number where
  whole := ds
  fraction := none
  exponent := none
  wholeDigits := hds
  fractionDigits := fun _ h => by cases h
  someDigit := Or.inl hne

theorem readsDecimals (htotal : ∀ content, content.length < fuel →
    ∃ r, grokNumberFuel fuel true content = some r) :
    ReadsDecimals (fun content => (grokNumberFuel fuel true content).map Prod.fst) fuel := by
  refine ⟨fun content hlen => ?_, fun ds behind flags hds hb hnumber => ?_⟩
  · obtain ⟨r, hr⟩ := htotal content hlen
    exact ⟨r.1, congrArg (Option.map Prod.fst) hr⟩
  · obtain ⟨r, hr, rfl⟩ := Option.map_eq_some_iff.1 hnumber
    cases fuel with
    | zero => cases hr
    | succ fuel =>
      by_cases hne : ds = []
      · subst hne
        rw [List.nil_append] at hr
        have hzero : r.1 = {} := by
          cases behind with
          | nil =>
            have hempty : grokNumberFuel (fuel + 1) true [] = some ({}, none) := rfl
            rw [hempty] at hr
            rw [← Option.some_inj.1 hr]
          | cons c behind =>
            have hdrop : (c :: behind).dropWhile isSPACE = [] := List.dropWhile_eq_nil_iff.2 hb
            have hc : isSPACE (peek (c :: behind)) = true := hb c List.mem_cons_self
            have hstart : grokStart (c :: behind) = none := by
              unfold grokStart
              simp [hdrop, hc]
            rw [grokNumberFuel, hstart] at hr
            rw [← Option.some_inj.1 hr]
        simp [hzero]
      · have hrun : grokNumberFuel (fuel + 1) true ([] ++ (Sign.none.text ++
            ((Number.ofDigits ds hds hne).text ++ behind))) =
            some ((Number.ofDigits ds hds hne).numtype Sign.none.neg,
              (Number.ofDigits ds hds hne).value) :=
          grokNumberFuel_numberText fuel true (fun _ hc => by cases hc) hb
        have htext : ([] : List UInt8) ++ (Sign.none.text ++
            ((Number.ofDigits ds hds hne).text ++ behind)) = ds ++ behind := by
          simp [Sign.text, Number.text, Number.ofDigits, pointText, exponentText]
        rw [htext, hr] at hrun
        rw [Option.some_inj.1 hrun]
        exact ⟨fun h => ⟨hne, of_decide_eq_true h.2⟩, fun h => ⟨rfl, decide_eq_true h.2⟩⟩

theorem isInfNan_or (word : Word) {numtype : NumberFlags} (h : IsPlain sign numtype)
    (trailing : Bool) :
    IsInfNan sign word trailing
      (if (wordFlags word).infinity then numtype.or { wordFlags word with trailing := trailing }
        else if (wordFlags word).nan then
          { numtype.or { wordFlags word with trailing := trailing } with neg := false }
        else {}) := by
  cases word with
  | inf =>
    refine ⟨?_, ?_, ?_, ?_, ?_, ?_⟩ <;>
      simp [wordFlags, NumberFlags.or, h.infinity, h.nan, h.neg, h.greaterThanUVMax, h.trailing]
  | ind =>
    refine ⟨?_, ?_, ?_, ?_, ?_, ?_⟩ <;>
      simp [wordFlags, NumberFlags.or, h.infinity, h.nan, h.greaterThanUVMax, h.trailing]
  | nan =>
    refine ⟨?_, ?_, ?_, ?_, ?_, ?_⟩ <;>
      simp [wordFlags, NumberFlags.or, h.infinity, h.nan, h.greaterThanUVMax, h.trailing]

theorem reading_word {hash : Hash} {word : Word} (sign : Sign)
    (hn : ReadsDecimals (fun content => (grokNumberFuel fuel true content).map Prod.fst) fuel)
    (hspaces : Spaces before) (ht : Spelling hash.odh word t)
    (hlen : (hash.text ++ (t ++ rest)).length ≤ fuel) :
    ∃ r : Bool → NumberFlags × Option UInt64,
      (∀ trailing, grokNumberFuel (fuel + 1) trailing
        (before ++ (sign.text ++ (hash.text ++ (t ++ rest)))) = some (r trailing)) ∧
      ((Ends hash.odh word rest ∧ r true = r false ∧ IsInfNan sign word false (r false).1) ∨
        (¬Ends hash.odh word rest ∧ (r false).1 = {} ∧ IsInfNan sign word true (r true).1)) := by
  obtain ⟨numtype, value, s, hplain, hs, hmaybe, hrun⟩ :=
    grokNumberFuel_word fuel sign rest hspaces ht
  have hpv : before ++ (sign.text ++ (hash.text ++ (t ++ rest))) ≠ zeroButTrue := by
    intro hpv
    have hzero := (starts_word hspaces ht).zeroButTrue hpv
    obtain ⟨c, u, rfl, hc⟩ := ht.first
    cases hash with
    | without =>
      have hc0 : c = 0x30 := hzero
      subst hc0
      cases hc
    | short => cases hzero
    | long => cases hzero
  obtain ⟨infnan, v, hgrok, hjudged⟩ := grokInfnan_word hn ht hlen
  have hend (trailing : Bool) := (hrun trailing).trans
    (grokEnd_infnan hs hpv hmaybe hgrok)
  refine ⟨_, hend, ?_⟩
  rcases hjudged with ⟨hends, rfl⟩ | ⟨hends, rfl⟩
  · refine Or.inl ⟨hends, ?_, ?_⟩
    · cases word <;> rfl
    · have hbits := isInfNan_or word hplain false
      cases word <;> exact hbits
  · refine Or.inr ⟨hends, rfl, ?_⟩
    have hbits := isInfNan_or word hplain true
    cases word <;> exact hbits

/-- What is found in a text, without and with the permission for trailing text. -/
inductive Reading (pv : List UInt8) (r : Bool → NumberFlags × Option UInt64) : Prop where
  | nothing (value : Option UInt64) : (∀ trailing, r trailing = ({}, value)) → Reading pv r
  | text : (r false).1 = {} → (r true).1.trailing = true → Reading pv r
  | number (sign : Sign) (n : Number) : IsNumberText pv sign n →
      r true = r false → Reading pv r
  | infnan (sign : Sign) (hash : Hash) (word : Word) (rest : List UInt8) :
      IsWordText pv sign hash word rest → Ends hash.odh word rest → r true = r false → Reading pv r
  | zeroButTrue : pv = zeroButTrue → r true = r false → Reading pv r
  | loneMinus : LoneMinus pv → r true = r false → Reading pv r

theorem reading_number {n : Number} {behind : List UInt8}
    (hspaces : Spaces before) (hstops : n.Stops behind)
    (hother : ∀ number, grokInfnan number (n.text ++ behind) = some ({}, n.text ++ behind)) :
    ∃ r, (∀ trailing, grokNumberFuel (fuel + 1) trailing
        (before ++ (sign.text ++ (n.text ++ behind))) = some (r trailing)) ∧
      Reading (before ++ (sign.text ++ (n.text ++ behind))) r := by
  have hstarts : Starts before sign (n.text ++ behind) := starts_number hspaces n behind
  have hrun (trailing : Bool) := grokNumberFuel_number fuel trailing hstops hstarts
  by_cases hexp : (n.exponent.isNone && atLetter behind 0x65) = true
  · simp only [if_pos hexp] at hrun
    exact ⟨_, hrun, .text rfl rfl⟩
  simp only [if_neg hexp] at hrun
  by_cases hs : Spaces behind
  · exact ⟨fun _ => _, fun trailing => (hrun trailing).trans (grokEnd_spaces hs),
      .number sign n ⟨before, behind, hspaces, hs, rfl⟩ rfl⟩
  by_cases hpv : before ++ (sign.text ++ (n.text ++ behind)) = zeroButTrue
  · exact ⟨fun _ => _, fun trailing => (hrun trailing).trans (grokEnd_zeroButTrue hs hpv),
      .zeroButTrue hpv rfl⟩
  cases hinf : maybeInfnan behind with
  | true =>
    exact ⟨fun _ => _, fun trailing => (hrun trailing).trans
      (grokEnd_infnan hs hpv hinf (hother _)), .nothing n.value fun trailing => rfl⟩
  | false =>
    exact ⟨_, fun trailing => (hrun trailing).trans (grokEnd_text hs hpv hinf), .text rfl rfl⟩

theorem reading_plain (h : Starts before sign d) (hdigit : isDIGIT (peek d) = false)
    (hpoint : peek d ≠ 0x2E)
    (hother : ∀ number, peek d ≠ 0x2B → peek d ≠ 0x2D → grokInfnan number d = some ({}, d)) :
    ∃ r, (∀ trailing, grokNumberFuel (fuel + 1) trailing (before ++ (sign.text ++ d)) =
        some (r trailing)) ∧ Reading (before ++ (sign.text ++ d)) r := by
  have hrun (trailing : Bool) := grokNumberFuel_plain fuel trailing h hdigit hpoint
  by_cases hs : Spaces d
  · refine ⟨fun _ => _, fun trailing => (hrun trailing).trans (grokEnd_spaces hs), ?_⟩
    cases sign with
    | none => exact .nothing none fun _ => rfl
    | plus => exact .nothing none fun _ => rfl
    | minus =>
      exact .loneMinus ⟨before, d, h.spaces, hs, h.behind (Or.inr (by decide)), rfl⟩ rfl
  have hpv : before ++ (sign.text ++ d) ≠ zeroButTrue := by
    intro hpv
    rw [h.zeroButTrue hpv] at hdigit
    cases hdigit
  cases hinf : maybeInfnan d with
  | true =>
    have hsigns : peek d ≠ 0x2B ∧ peek d ≠ 0x2D := by
      by_cases hspace : isSPACE (peek d) = true
      · have hplain := plain_of_space hspace
        exact ⟨hplain.2.2.1, hplain.2.2.2.1⟩
      · have hdrop : d.dropWhile isSPACE = d := dropWhile_peek (Bool.not_eq_true _ ▸ hspace)
        rw [maybeInfnan, hdrop, Bool.and_eq_true] at hinf
        have hplain := plain_of_startsInfnan hinf.2
        exact ⟨hplain.2.2.2.1, hplain.2.2.2.2.1⟩
    exact ⟨fun _ => _, fun trailing => (hrun trailing).trans
      (grokEnd_infnan hs hpv hinf (hother _ hsigns.1 hsigns.2)), .nothing none fun trailing => rfl⟩
  | false =>
    exact ⟨_, fun trailing => (hrun trailing).trans (grokEnd_text hs hpv hinf), .text rfl rfl⟩

theorem exists_reading
    (hn : ReadsDecimals (fun content => (grokNumberFuel fuel true content).map Prod.fst) fuel)
    (hlen : pv.length ≤ fuel) :
    ∃ r, (∀ trailing, grokNumberFuel (fuel + 1) trailing pv = some (r trailing)) ∧
      Reading pv r := by
  rcases grokStart_cases pv with hstart | ⟨before, sign, d, hstarts, rfl⟩
  · refine ⟨fun _ => ({}, none), fun trailing => ?_, .nothing none fun _ => rfl⟩
    rw [grokNumberFuel, hstart]
  by_cases hword : ∃ (hash : Hash) (word : Word) (t rest : List UInt8),
      Spelling hash.odh word t ∧ d = hash.text ++ (t ++ rest)
  · obtain ⟨hash, word, t, rest, ht, rfl⟩ := hword
    have hle : (hash.text ++ (t ++ rest)).length ≤ fuel := by
      simp only [List.length_append] at hlen ⊢
      omega
    obtain ⟨r, hr, h⟩ := reading_word sign hn hstarts.spaces ht hle
    refine ⟨r, hr, ?_⟩
    have htext : IsWordText (before ++ (sign.text ++ (hash.text ++ (t ++ rest)))) sign hash word
        rest := ⟨before, t, hstarts.spaces, ht, rfl⟩
    rcases h with ⟨hends, heq, -⟩ | ⟨-, hfalse, htrue⟩
    · exact .infnan sign hash word rest htext hends heq
    · exact .text hfalse htrue.trailing
  by_cases hnumber : isDIGIT (peek d) = true ∨ ∃ s, d = 0x2E :: s ∧ isDIGIT (peek s) = true
  · obtain ⟨n, behind, rfl, hstops⟩ := exists_number hnumber
    refine reading_number hstarts.spaces hstops fun number => ?_
    have hall : ∀ c : UInt8, (!isDIGIT c || (c != 0x2B && c != 0x2D)) = true :=
      forall_byte (by decide +kernel)
    rcases hnumber with hdigit | ⟨s, hs, -⟩
    · have hsigns : peek (n.text ++ behind) ≠ 0x2B ∧ peek (n.text ++ behind) ≠ 0x2D := by
        simpa [hdigit] using hall (peek (n.text ++ behind))
      exact grokInfnan_other hsigns.1 hsigns.2 hword
    · rw [hs] at hword ⊢
      have hsigns : (0x2E : UInt8) ≠ 0x2B ∧ (0x2E : UInt8) ≠ 0x2D := by decide
      exact grokInfnan_other hsigns.1 hsigns.2 hword
  · have hdigit : isDIGIT (peek d) = false := by
      rw [← Bool.not_eq_true]
      exact fun h => hnumber (Or.inl h)
    by_cases hpoint : peek d = 0x2E
    · obtain ⟨s, rfl⟩ : ∃ s, d = 0x2E :: s := by
        cases d with
        | nil => cases hpoint
        | cons c s => exact ⟨s, congrArg (· :: s) hpoint⟩
      have hs : isDIGIT (peek s) = false := by
        rw [← Bool.not_eq_true]
        exact fun h => hnumber (Or.inr ⟨s, rfl, h⟩)
      exact ⟨fun _ => ({}, none), fun trailing => grokNumberFuel_point fuel trailing hstarts hs,
        .nothing none fun _ => rfl⟩
    · exact reading_plain hstarts hdigit hpoint fun number hplus hminus =>
        grokInfnan_other hplus hminus hword

theorem grokNumberFuel_total (hlen : pv.length < fuel) (trailing : Bool) :
    ∃ r, grokNumberFuel fuel trailing pv = some r := by
  induction fuel generalizing pv trailing with
  | zero => exact absurd hlen (Nat.not_lt_zero _)
  | succ fuel ih =>
    obtain ⟨r, hr, -⟩ := exists_reading (readsDecimals fun content hcontent => ih hcontent true)
      (Nat.le_of_lt_succ hlen)
    exact ⟨r trailing, hr trailing⟩

theorem readsDecimals_payload (fuel : Nat) :
    ReadsDecimals (fun content => (grokNumberFuel fuel true content).map Prod.fst) fuel :=
  readsDecimals fun _ hcontent => grokNumberFuel_total hcontent true

theorem grokNumberFlags_reading (pv : List UInt8) :
    ∃ r, (∀ trailing, grokNumberFlags trailing pv = some (r trailing)) ∧ Reading pv r :=
  exists_reading (readsDecimals_payload pv.length) (Nat.le_refl _)

end Readings

section Grammar

variable {pv : List UInt8} {sign : Sign} {n : Number} {hash : Hash} {word : Word}
  {rest : List UInt8}

theorem grokNumberFlags_number (h : IsNumberText pv sign n) (trailing : Bool) :
    grokNumberFlags trailing pv = some (n.numtype sign.neg, n.value) := by
  obtain ⟨before, behind, hspaces, hbehind, rfl⟩ := h
  exact grokNumberFuel_numberText _ trailing hspaces hbehind

theorem grokNumberFlags_word (h : IsWordText pv sign hash word rest) :
    ∃ r : Bool → NumberFlags × Option UInt64,
      (∀ trailing, grokNumberFlags trailing pv = some (r trailing)) ∧
      ((Ends hash.odh word rest ∧ r true = r false ∧ IsInfNan sign word false (r false).1) ∨
        (¬Ends hash.odh word rest ∧ (r false).1 = {} ∧ IsInfNan sign word true (r true).1)) := by
  obtain ⟨before, t, hspaces, ht, rfl⟩ := h
  refine reading_word sign (readsDecimals_payload _) hspaces ht ?_
  simp only [List.length_append]
  omega

theorem grokNumberFlags_zeroButTrue (trailing : Bool) :
    grokNumberFlags trailing zeroButTrue = some ({ inUV := true }, some 0) := by
  cases trailing <;> decide +kernel

theorem numtype_ne (n : Number) (neg : Bool) : n.numtype neg ≠ {} := by
  intro h
  have hint : (n.fraction.isSome || n.exponent.isSome) = false := congrArg NumberFlags.notInt h
  have huv : (n.exponent.isNone && n.fits) = false := congrArg NumberFlags.inUV h
  have hgreater : (n.exponent.isNone && !n.fits) = false :=
    congrArg NumberFlags.greaterThanUVMax h
  rw [Bool.or_eq_false_iff] at hint
  have hnone : n.exponent.isNone = true := by
    cases he : n.exponent with
    | none => rfl
    | some e => rw [he] at hint; cases hint.2
  rw [hnone, Bool.true_and] at huv hgreater
  rw [huv] at hgreater
  cases hgreater

theorem accepted_numtype (h : Accepted pv) :
    ∃ r, (∀ trailing, grokNumberFlags trailing pv = some r) ∧ r.1 ≠ {} := by
  cases h with
  | number sign n h => exact ⟨_, grokNumberFlags_number h, numtype_ne n sign.neg⟩
  | infnan sign hash word rest h hends =>
    obtain ⟨r, hr, hcases⟩ := grokNumberFlags_word h
    rcases hcases with ⟨-, heq, hbits⟩ | ⟨hno, -⟩
    · refine ⟨r false, fun trailing => ?_, fun hzero => ?_⟩
      · cases trailing with
        | false => exact hr false
        | true => rw [hr true, heq]
      · have hint := hbits.notInt
        rw [hzero] at hint
        cases hint
    · exact absurd hends hno
  | zeroButTrue h =>
    subst h
    exact ⟨_, grokNumberFlags_zeroButTrue, by decide⟩

theorem grokNumberFlags_trailing {before behind : List UInt8} (hspaces : Spaces before)
    (hstops : n.Stops behind) (hs : ¬Spaces behind)
    (hpv : before ++ (sign.text ++ (n.text ++ behind)) ≠ zeroButTrue)
    (hinf : maybeInfnan behind = false) :
    grokNumberFlags true (before ++ (sign.text ++ (n.text ++ behind))) =
      some ({ n.numtype sign.neg with trailing := true }, n.value) := by
  have hstarts : Starts before sign (n.text ++ behind) := starts_number hspaces n behind
  have hrun := grokNumberFuel_number
    (before ++ (sign.text ++ (n.text ++ behind))).length true hstops hstarts
  rw [grokNumberFlags, hrun, grokEnd_text hs hpv hinf]
  simp only [if_true, ite_self]

/-- `grok_number_flags` accepts its grammar and gives the types of its texts. A minus sign in front
of white space alone stays open, and a number in front of text that may be an infinity or a NaN. -/
theorem grok_number_grammar (pv : List UInt8) :
    (∃ numtype value, grokNumberFlags false pv = some (numtype, value) ∧
      (¬LoneMinus pv → (numtype ≠ {} ↔ Accepted pv))) ∧
    (∀ trailing sign n, IsNumberText pv sign n →
      grokNumberFlags trailing pv = some (n.numtype sign.neg, n.value)) ∧
    (∀ trailing, pv = zeroButTrue →
      grokNumberFlags trailing pv = some ({ inUV := true }, some 0)) ∧
    (∀ trailing sign hash word rest, IsWordText pv sign hash word rest →
      (trailing = false → Ends hash.odh word rest) →
      ∃ numtype value text, grokNumberFlags trailing pv = some (numtype, value) ∧
        (text = false ↔ Ends hash.odh word rest) ∧ IsInfNan sign word text numtype) ∧
    (grokNumberFlags true pv = grokNumberFlags false pv ∨
      ¬Accepted pv ∧ ∃ numtype value value', grokNumberFlags false pv = some ({}, value) ∧
        grokNumberFlags true pv = some (numtype, value') ∧ numtype.trailing = true) ∧
    (∀ before sign n behind, Spaces before → n.Stops behind → ¬Spaces behind →
      maybeInfnan behind = false → pv = before ++ (Sign.text sign ++ (Number.text n ++ behind)) →
      pv ≠ zeroButTrue →
      grokNumberFlags true pv =
        some ({ n.numtype sign.neg with trailing := true }, n.value)) := by
  obtain ⟨r, hr, hreading⟩ := grokNumberFlags_reading pv
  have haccepted (h : Accepted pv) : (r false).1 ≠ {} := by
    obtain ⟨result, hresult, hne⟩ := accepted_numtype h
    have hfalse : r false = result := Option.some_inj.1 ((hr false).symm.trans (hresult false))
    rwa [hfalse]
  refine ⟨⟨(r false).1, (r false).2, hr false, fun hminus => ⟨fun hne => ?_, haccepted⟩⟩,
    fun trailing sign n h => grokNumberFlags_number h trailing,
    fun trailing h => h ▸ grokNumberFlags_zeroButTrue trailing,
    fun trailing sign hash word rest h hends => ?_, ?_,
    fun before sign n behind hspaces hstops hs hinf htext hpv => ?_⟩
  · cases hreading with
    | nothing value h => rw [h false] at hne; exact absurd rfl hne
    | text h => exact absurd h hne
    | number sign n h => exact .number sign n h
    | infnan sign hash word rest h hends => exact .infnan sign hash word rest h hends
    | zeroButTrue h => exact .zeroButTrue h
    | loneMinus h => exact absurd h hminus
  · obtain ⟨r, hr, hcases⟩ := grokNumberFlags_word h
    rcases hcases with ⟨hyes, heq, hbits⟩ | ⟨hno, -, hbits⟩
    · refine ⟨(r false).1, (r false).2, false, ?_, iff_of_true rfl hyes, hbits⟩
      cases trailing with
      | false => exact hr false
      | true => rw [hr true, heq]
    · cases trailing with
      | false => exact absurd (hends rfl) hno
      | true => exact ⟨(r true).1, (r true).2, true, hr true, iff_of_false (by decide) hno, hbits⟩
  · rw [hr true, hr false]
    cases hreading with
    | nothing value h => exact Or.inl (by rw [h true, h false])
    | text hzero htrailing =>
      refine Or.inr ⟨fun h => haccepted h hzero, (r true).1, (r false).2, (r true).2, ?_, rfl,
        htrailing⟩
      rw [← hzero]
    | number _ _ _ heq => exact Or.inl (congrArg some heq)
    | infnan _ _ _ _ _ _ heq => exact Or.inl (congrArg some heq)
    | zeroButTrue _ heq => exact Or.inl (congrArg some heq)
    | loneMinus _ heq => exact Or.inl (congrArg some heq)
  · subst htext
    exact grokNumberFlags_trailing hspaces hstops hs hpv hinf

/-- "-12.5e3" is a number. -/
theorem grok_number_grammar_decimal :
    grokNumberFlags false [0x2D, 0x31, 0x32, 0x2E, 0x35, 0x65, 0x33] =
      some ({ neg := true, notInt := true }, some 12) := by
  have hdigits : Digits [0x31, 0x32] ∧ Digits [0x35] ∧ Digits [0x33] :=
    ⟨List.all_eq_true.1 rfl, List.all_eq_true.1 rfl, List.all_eq_true.1 rfl⟩
  let n : Number := ⟨[0x31, 0x32], some [0x35],
    some ⟨0x65, .none, [0x33], by decide, hdigits.2.2, by decide⟩, hdigits.1, fun ds hds => by
      cases hds
      exact hdigits.2.1, Or.inl (by decide)⟩
  obtain ⟨-, hnumber, -⟩ := grok_number_grammar [0x2D, 0x31, 0x32, 0x2E, 0x35, 0x65, 0x33]
  have hvalue : n.value = some 12 := rfl
  rw [hnumber false .minus n
    ⟨[], [], (fun _ hc => by cases hc), (fun _ hc => by cases hc), rfl⟩, hvalue]
  rfl

/-- "1." has the type of a number that is no integer although its fraction is empty, "1e5" is not
IN_UV although its integer part fits, and "12abc" has a type with PERL_SCAN_TRAILING alone. -/
theorem point_exponent_and_trailing :
    grokNumberFlags false [0x31, 0x2E] = some ({ inUV := true, notInt := true }, some 1) ∧
    grokNumberFlags false [0x31, 0x65, 0x35] = some ({ notInt := true }, some 1) ∧
    grokNumberFlags false [0x31, 0x32, 0x61, 0x62, 0x63] = some ({}, some 12) ∧
    grokNumberFlags true [0x31, 0x32, 0x61, 0x62, 0x63] =
      some ({ inUV := true, trailing := true }, some 12) := by
  decide +kernel

/-- nan(0x1F ) is a NaN, nan(0x) is not. -/
example : grokNumberFlags false [0x6E, 0x61, 0x6E, 0x28, 0x30, 0x78, 0x31, 0x46, 0x20, 0x29] =
      some ({ nan := true, notInt := true }, none) ∧
    grokNumberFlags false [0x6E, 0x61, 0x6E, 0x28, 0x30, 0x78, 0x29] = some ({}, none) := by
  decide +kernel

end Grammar

end XPerl.Numeric
