import XPerl.Numeric.Decimal

/-! How `grok_number_flags` goes through a number. -/

namespace XPerl.Numeric

section Peeking

variable {p : UInt8 → Bool} {s t : List UInt8}

theorem dropWhile_peek (h : p (peek s) = false) : s.dropWhile p = s := by
  cases s with
  | nil => rfl
  | cons c s =>
    have hc : p c = false := h
    exact List.dropWhile_cons_of_neg (by simp [hc])

theorem dropWhile_stop (ht : ∀ c ∈ t, p c = true) (hs : p (peek s) = false) :
    (t ++ s).dropWhile p = s := by
  rw [List.dropWhile_append_of_pos ht, dropWhile_peek hs]

theorem takeWhile_stop (ht : ∀ c ∈ t, p c = true) (hs : p (peek s) = false) :
    (t ++ s).takeWhile p = t := by
  rw [List.takeWhile_append_of_pos ht]
  cases s with
  | nil => simp
  | cons c s =>
    have hc : p c = false := hs
    rw [List.takeWhile_cons_of_neg (by simp [hc]), List.append_nil]

theorem peek_dropWhile (h0 : p 0 = false) (s : List UInt8) : p (peek (s.dropWhile p)) = false := by
  induction s with
  | nil => exact h0
  | cons c s ih =>
    by_cases hc : p c = true
    · rwa [List.dropWhile_cons_of_pos hc]
    · rw [List.dropWhile_cons_of_neg hc]
      exact Bool.not_eq_true _ ▸ hc

theorem all_takeWhile (s : List UInt8) : ∀ c ∈ s.takeWhile p, p c = true := fun _ hc =>
  List.mem_takeWhile_imp hc

theorem peek_append (h : t ≠ []) : peek (t ++ s) = peek t := by
  cases t with
  | nil => exact absurd rfl h
  | cons c t => rfl

theorem peek_all (ht : ∀ c ∈ t, p c = true) (h : t ≠ []) : p (peek t) = true := by
  cases t with
  | nil => exact absurd rfl h
  | cons c t => exact ht c List.mem_cons_self

end Peeking

section Classes

variable {c : UInt8}

theorem plain_of_space (h : isSPACE c = true) :
    isDIGIT c = false ∧ c ≠ 0x2E ∧ c ≠ 0x2B ∧ c ≠ 0x2D ∧ isAlphaFoldEq c 0x65 = false := by
  have hall : ∀ c : UInt8, (!isSPACE c || (!isDIGIT c && c != 0x2E && c != 0x2B && c != 0x2D &&
      !isAlphaFoldEq c 0x65)) = true := forall_byte (by decide +kernel)
  simpa [h, and_assoc] using hall c

theorem plain_of_e (h : isAlphaFoldEq c 0x65 = true) :
    isDIGIT c = false ∧ c ≠ 0x2E ∧ isSPACE c = false ∧ startsInfnan c = false := by
  have hall : ∀ c : UInt8, (!isAlphaFoldEq c 0x65 || (!isDIGIT c && c != 0x2E && !isSPACE c &&
      !startsInfnan c)) = true := forall_byte (by decide +kernel)
  simpa [h, and_assoc] using hall c

end Classes

/-- White space and a sign, and what stands behind them. -/
structure Starts (before : List UInt8) (sign : Sign) (d : List UInt8) : Prop where
  spaces : Spaces before
  unsigned : sign = .none → isSPACE (peek d) = false ∧ peek d ≠ 0x2B ∧ peek d ≠ 0x2D
  behind : before ≠ [] ∨ sign ≠ .none → d ≠ []

theorem grokStart_cons {pv d : List UInt8} {c : UInt8} (h : pv.dropWhile isSPACE = c :: d) :
    grokStart pv = if c = 0x2D then (stepOn (c :: d)).map (true, ·)
      else if c = 0x2B then (stepOn (c :: d)).map (false, ·) else some (false, c :: d) := by
  have hminus : ((0x2D : UInt8) &&& 0xF9 == 0x29) = true := by decide
  have hplus : ((0x2B : UInt8) &&& 0xF9 == 0x29) = true := by decide
  unfold grokStart
  simp only [h, peek, List.headD_cons, List.isEmpty_cons, Bool.and_false, Bool.false_eq_true,
    if_false, beq_iff_eq]
  split_ifs with hbits hm hp hm hp
  · rfl
  · rfl
  · rfl
  · rw [hm] at hbits
    exact absurd (beq_iff_eq.1 hminus) hbits
  · rw [hp] at hbits
    exact absurd (beq_iff_eq.1 hplus) hbits
  · rfl

theorem grokStart_eq {before d : List UInt8} {sign : Sign} (h : Starts before sign d) :
    grokStart (before ++ (sign.text ++ d)) = some (sign.neg, d) := by
  have hspace : isSPACE (peek (sign.text ++ d)) = false := by
    cases sign with
    | none => exact (h.unsigned rfl).1
    | plus => rfl
    | minus => rfl
  have hdrop : (before ++ (sign.text ++ d)).dropWhile isSPACE = sign.text ++ d :=
    dropWhile_stop h.spaces hspace
  cases sign with
  | none =>
    obtain ⟨-, hplus, hminus⟩ := h.unsigned rfl
    cases d with
    | nil =>
      have hbefore : before = [] := by
        by_contra hne
        exact h.behind (Or.inl hne) rfl
      subst hbefore
      rfl
    | cons c d =>
      have hm : c ≠ 0x2D := hminus
      have hp : c ≠ 0x2B := hplus
      rw [grokStart_cons hdrop, if_neg hm, if_neg hp]
      rfl
  | plus =>
    have hd : d ≠ [] := h.behind (Or.inr (by decide))
    rw [grokStart_cons hdrop, if_neg (by decide), if_pos rfl]
    simp [stepOn, hd, Sign.neg]
  | minus =>
    have hd : d ≠ [] := h.behind (Or.inr (by decide))
    rw [grokStart_cons hdrop, if_pos rfl]
    simp [stepOn, hd, Sign.neg]

theorem grokStart_cases (pv : List UInt8) :
    grokStart pv = none ∨
      ∃ before sign d, Starts before sign d ∧ pv = before ++ (sign.text ++ d) := by
  have hsplit : pv.takeWhile isSPACE ++ pv.dropWhile isSPACE = pv :=
    List.takeWhile_append_dropWhile
  have hspaces : Spaces (pv.takeWhile isSPACE) := all_takeWhile pv
  have hspace : isSPACE (peek (pv.dropWhile isSPACE)) = false := peek_dropWhile rfl pv
  generalize pv.takeWhile isSPACE = before at *
  generalize pv.dropWhile isSPACE = s at *
  subst hsplit
  have hdrop : (before ++ s).dropWhile isSPACE = s := dropWhile_stop hspaces hspace
  cases s with
  | nil =>
    by_cases hbefore : before = []
    · subst hbefore
      exact Or.inr ⟨[], .none, [], ⟨hspaces, fun _ => ⟨rfl, by decide, by decide⟩, by simp⟩, rfl⟩
    · have hpeek : isSPACE (peek before) = true := peek_all hspaces hbefore
      refine Or.inl ?_
      rw [List.append_nil] at hdrop ⊢
      simp [grokStart, hdrop, hpeek]
  | cons c d =>
    by_cases hminus : c = 0x2D
    · subst hminus
      by_cases hd : d = []
      · left
        rw [grokStart_cons hdrop, hd]
        rfl
      · exact Or.inr ⟨before, .minus, d, ⟨hspaces, (fun h => by cases h), fun _ => hd⟩, rfl⟩
    · by_cases hplus : c = 0x2B
      · subst hplus
        by_cases hd : d = []
        · left
          rw [grokStart_cons hdrop, hd]
          rfl
        · exact Or.inr ⟨before, .plus, d, ⟨hspaces, (fun h => by cases h), fun _ => hd⟩, rfl⟩
      · exact Or.inr ⟨before, .none, c :: d,
          ⟨hspaces, fun _ => ⟨hspace, hplus, hminus⟩, fun _ => List.cons_ne_nil c d⟩, rfl⟩

section Stages

variable {n : Number} {behind : List UInt8}

def Number.mantissaType (n : Number) (neg : Bool) : NumberFlags where
  neg := neg
  notInt := n.fraction.isSome
  inUV := n.fits
  greaterThanUVMax := !n.fits

theorem Number.Stops.plain (h : n.Stops behind) :
    isDIGIT (peek (exponentText n.exponent ++ behind)) = false ∧
      (n.fraction = none → peek (exponentText n.exponent ++ behind) ≠ 0x2E) := by
  cases he : n.exponent with
  | none => exact ⟨h.digit, fun hf => h.point hf he⟩
  | some e =>
    have hplain := plain_of_e e.isE
    exact ⟨hplain.1, fun _ => hplain.2.1⟩

theorem integerPart_eq {neg : Bool} {next : NumberFlags} {value : Option UInt64}
    (h : IntegerPart n.whole { neg } next value) :
    next = { neg, inUV := n.fits, greaterThanUVMax := !n.fits } ∧ value = n.value := by
  unfold IntegerPart at h
  by_cases hfits : numberValue .ten n.whole < 2 ^ 64
  · rw [if_pos hfits] at h
    obtain ⟨rfl, v, rfl, hv⟩ := h
    have hn : n.fits = true := decide_eq_true hfits
    rw [Number.value, if_pos hn, ← hv, UInt64.ofNat_toNat, hn]
    exact ⟨rfl, rfl⟩
  · rw [if_neg hfits] at h
    obtain ⟨rfl, rfl⟩ := h
    have hn : n.fits = false := decide_eq_false hfits
    rw [Number.value, hn]
    exact ⟨rfl, rfl⟩

theorem grokPoint_eq (h : n.Stops behind) (neg : Bool) (value : Option UInt64) :
    grokPoint { neg, inUV := n.fits, greaterThanUVMax := !n.fits } value
        (pointText n.fraction ++ (exponentText n.exponent ++ behind)) =
      .goes (n.mantissaType neg) value (exponentText n.exponent ++ behind) := by
  obtain ⟨hdigit, hpoint⟩ := h.plain
  have hds := n.fractionDigits
  generalize exponentText n.exponent ++ behind = r at *
  unfold Number.mantissaType grokPoint
  cases hf : n.fraction with
  | none =>
    have hradix : grokNumericRadix r = none := by
      cases r with
      | nil => rfl
      | cons c r =>
        have hc : c ≠ 0x2E := hpoint hf
        simp [grokNumericRadix, hc]
    rw [pointText, List.nil_append, hradix]
    rfl
  | some ds =>
    have hradix : grokNumericRadix (pointText (some ds) ++ r) = some (ds ++ r) := rfl
    rw [hradix]
    dsimp only
    rw [dropWhile_stop (hds ds hf) hdigit]
    rfl

theorem grokDigits_number (h : n.Stops behind) (neg : Bool) :
    ∃ stage, grokDigits { neg } (n.text ++ behind) = some stage ∧
      (stage = .goes (n.mantissaType neg) n.value (exponentText n.exponent ++ behind) ∨
        (stage = .returns (n.mantissaType neg) n.value ∧
          exponentText n.exponent ++ behind = [])) := by
  have hpoint := grokPoint_eq h neg n.value
  obtain ⟨hdigit, -⟩ := h.plain
  have htext : n.text ++ behind =
      n.whole ++ (pointText n.fraction ++ (exponentText n.exponent ++ behind)) := by
    simp [Number.text]
  rw [htext]
  generalize exponentText n.exponent ++ behind = r at *
  by_cases hwhole : n.whole = []
  · obtain ⟨ds, hf, hds⟩ := n.someDigit.resolve_left (not_not_intro hwhole)
    have hdigits : Digits ds := n.fractionDigits ds hf
    have hpeek : isDIGIT (peek (ds ++ r)) = true := by
      rw [peek_append hds]
      exact peek_all hdigits hds
    have hfits : n.fits = true := by
      rw [Number.fits, hwhole]
      decide
    have hvalue : n.value = some 0 := by
      rw [Number.value, if_pos hfits, hwhole]
      rfl
    refine ⟨_, ?_, Or.inl rfl⟩
    rw [hwhole, hf, hvalue, List.nil_append]
    have hnodigit : isDIGIT (peek (pointText (some ds) ++ r)) = false := rfl
    have hradix : grokNumericRadix (pointText (some ds) ++ r) = some (ds ++ r) := rfl
    rw [grokDigits, hnodigit, if_neg Bool.false_ne_true, hradix]
    dsimp only
    rw [if_pos hpeek, dropWhile_stop hdigits hdigit, Number.mantissaType, hf, hfits]
    rfl
  · have hrest : isDIGIT (peek (pointText n.fraction ++ r)) = false := by
      cases n.fraction with
      | none => exact hdigit
      | some ds => rfl
    have hpeek : isDIGIT (peek (n.whole ++ (pointText n.fraction ++ r))) = true := by
      rw [peek_append hwhole]
      exact peek_all n.wholeDigits hwhole
    obtain ⟨next, value, stage, hstage, hpart, hcases⟩ := grokDigits_spec { neg } hpeek
    rw [takeWhile_stop n.wholeDigits hrest] at hpart
    rw [dropWhile_stop n.wholeDigits hrest] at hcases
    obtain ⟨rfl, rfl⟩ := integerPart_eq hpart
    refine ⟨stage, hstage, ?_⟩
    rcases hcases with rfl | ⟨rfl, hend⟩
    · exact Or.inl hpoint
    · obtain ⟨hnone, hr⟩ := List.append_eq_nil_iff.1 hend
      have hf : n.fraction = none := by
        cases hf : n.fraction with
        | none => rfl
        | some ds => rw [hf] at hnone; cases hnone
      refine Or.inr ⟨?_, hr⟩
      rw [Number.mantissaType, hf]
      rfl

theorem no_digit_of_stops (h : n.Stops behind) (he : n.exponent = none)
    (hletter : atLetter behind 0x65 = true) :
    isDIGIT (peek (if peek behind.tail == 0x2D || peek behind.tail == 0x2B then behind.tail.tail
      else behind.tail)) = false := by
  cases behind with
  | nil => cases hletter
  | cons c s =>
    have hc : isAlphaFoldEq c 0x65 = true := hletter
    have hnone : ∀ sign : Sign, ∀ u, s = sign.text ++ u → isDIGIT (peek u) = false := by
      intro sign u hu
      by_contra hdigit
      rw [Bool.not_eq_false] at hdigit
      have hne : u.takeWhile isDIGIT ≠ [] := by
        cases u with
        | nil => cases hdigit
        | cons d u =>
          have hd : isDIGIT d = true := hdigit
          simp [List.takeWhile_cons_of_pos hd]
      refine h.exponent he ⟨c, sign, u.takeWhile isDIGIT, hc, all_takeWhile u, hne⟩
        (u.dropWhile isDIGIT) ?_
      simp [Exponent.text, hu]
    rw [List.tail_cons]
    cases s with
    | nil => rfl
    | cons d s =>
      by_cases hminus : d = 0x2D
      · subst hminus
        exact hnone .minus s rfl
      · by_cases hplus : d = 0x2B
        · subst hplus
          exact hnone .plus s rfl
        · rw [if_neg (by simp [peek, hminus, hplus])]
          exact hnone .none (d :: s) rfl

theorem grokExponent_number (h : n.Stops behind) (trailing neg : Bool) {d : List UInt8}
    (hd : (exponentText n.exponent ++ behind).length < d.length) :
    grokExponent trailing d (n.mantissaType neg) n.value (exponentText n.exponent ++ behind) =
      if n.exponent.isNone && atLetter behind 0x65 then
        .returns (if trailing then { n.numtype neg with trailing := true } else {}) n.value
      else .goes (n.numtype neg) n.value behind := by
  cases he : n.exponent with
  | none =>
    rw [he, exponentText, List.nil_append] at hd
    have htype : n.mantissaType neg = n.numtype neg := by
      simp [Number.mantissaType, Number.numtype, he]
    unfold grokExponent
    rw [exponentText, List.nil_append, htype]
    by_cases hletter : atLetter behind 0x65 = true
    · have hdigit := no_digit_of_stops h he hletter
      simp only [hd, hletter, decide_true, Bool.and_self, if_true, hdigit, Bool.false_eq_true,
        if_false, Option.isNone_none]
      split_ifs <;> rfl
    · simp [hletter]
  | some e =>
    rw [he] at hd
    have hletter : atLetter (exponentText (some e) ++ behind) 0x65 = true := e.isE
    have hpeek : isDIGIT (peek (e.digits ++ behind)) = true := by
      rw [peek_append e.nonempty]
      exact peek_all e.areDigits e.nonempty
    have hsign : (if peek (e.sign.text ++ (e.digits ++ behind)) == 0x2D ||
        peek (e.sign.text ++ (e.digits ++ behind)) == 0x2B then
        (e.sign.text ++ (e.digits ++ behind)).tail
        else e.sign.text ++ (e.digits ++ behind)) = e.digits ++ behind := by
      cases e.sign with
      | none =>
        have hplain : ∀ c : UInt8, (!isDIGIT c || (c != 0x2D && c != 0x2B)) = true :=
          forall_byte (by decide +kernel)
        have hne : peek (e.digits ++ behind) ≠ 0x2D ∧ peek (e.digits ++ behind) ≠ 0x2B := by
          simpa [hpeek] using hplain (peek (e.digits ++ behind))
        rw [Sign.text, List.nil_append, if_neg (by simp [hne.1, hne.2])]
      | plus => rfl
      | minus => rfl
    have htail : (exponentText (some e) ++ behind).tail =
        e.sign.text ++ (e.digits ++ behind) := by
      simp [exponentText, Exponent.text]
    unfold grokExponent
    simp only [hd, hletter, decide_true, Bool.and_self, if_true, htail, hsign, hpeek]
    rw [dropWhile_stop e.areDigits h.digit]
    simp [Number.mantissaType, Number.numtype, he]

theorem grokNumberFuel_number {before : List UInt8} {sign : Sign} (fuel : Nat) (trailing : Bool)
    (h : n.Stops behind) (hs : Starts before sign (n.text ++ behind)) :
    grokNumberFuel (fuel + 1) trailing (before ++ (sign.text ++ (n.text ++ behind))) =
      if n.exponent.isNone && atLetter behind 0x65 then
        some (if trailing then { n.numtype sign.neg with trailing := true } else {}, n.value)
      else
        grokEnd (fun content => (grokNumberFuel fuel true content).map Prod.fst) trailing
          (before ++ (sign.text ++ (n.text ++ behind))) (n.text ++ behind) (n.numtype sign.neg)
          n.value behind := by
  have hlen : (exponentText n.exponent ++ behind).length < (n.text ++ behind).length := by
    have hpos : 0 < n.whole.length + (pointText n.fraction).length := by
      rcases n.someDigit with hne | ⟨ds, hf, -⟩
      · have hwhole := List.length_pos_iff.2 hne
        omega
      · rw [hf, pointText, List.length_cons]
        omega
    simp only [Number.text, List.length_append]
    omega
  obtain ⟨stage, hstage, hcases⟩ := grokDigits_number h sign.neg
  rw [grokNumberFuel, grokStart_eq hs]
  simp only [Option.bind_eq_bind, hstage, Option.bind_some]
  rcases hcases with rfl | ⟨rfl, hend⟩
  · simp only [grokExponent_number h trailing sign.neg hlen]
    split_ifs <;> rfl
  · obtain ⟨hnone, rfl⟩ := List.append_eq_nil_iff.1 hend
    have he : n.exponent = none := by
      cases he : n.exponent with
      | none => rfl
      | some e => rw [he] at hnone; cases hnone
    have htype : n.mantissaType sign.neg = n.numtype sign.neg := by
      simp [Number.mantissaType, Number.numtype, he]
    simp [htype, atLetter, grokEnd]

theorem exists_number {d : List UInt8}
    (h : isDIGIT (peek d) = true ∨ ∃ s, d = 0x2E :: s ∧ isDIGIT (peek s) = true) :
    ∃ (n : Number) (behind : List UInt8), d = n.text ++ behind ∧ n.Stops behind := by
  -- the mantissa first
  obtain ⟨whole, fraction, r, hd, hwhole, hfraction, hsome, hdigit, hpoint⟩ :
      ∃ whole fraction r, d = whole ++ (pointText fraction ++ r) ∧ Digits whole ∧
        (∀ ds, fraction = some ds → Digits ds) ∧
        (whole ≠ [] ∨ ∃ ds, fraction = some ds ∧ ds ≠ []) ∧ isDIGIT (peek r) = false ∧
        (fraction = none → peek r ≠ 0x2E) := by
    have hne {s : List UInt8} (hs : isDIGIT (peek s) = true) : s.takeWhile isDIGIT ≠ [] := by
      cases s with
      | nil => cases hs
      | cons c s =>
        have hc : isDIGIT c = true := hs
        simp [List.takeWhile_cons_of_pos hc]
    have hsplit (s : List UInt8) : s = s.takeWhile isDIGIT ++ s.dropWhile isDIGIT :=
      List.takeWhile_append_dropWhile.symm
    rcases h with hs | ⟨s, rfl, hs⟩
    · by_cases hpoint : peek (d.dropWhile isDIGIT) = 0x2E
      · obtain ⟨s, hs'⟩ : ∃ s, d.dropWhile isDIGIT = 0x2E :: s := by
          generalize d.dropWhile isDIGIT = r at hpoint
          cases r with
          | nil => cases hpoint
          | cons c s => exact ⟨s, congrArg (· :: s) hpoint⟩
        refine ⟨d.takeWhile isDIGIT, some (s.takeWhile isDIGIT), s.dropWhile isDIGIT, ?_,
          all_takeWhile d, ?_, Or.inl (hne hs), peek_dropWhile rfl s, (fun h => by cases h)⟩
        · rw [pointText, List.cons_append, ← hsplit s, ← hs', ← hsplit d]
        · intro ds hds
          cases hds
          exact all_takeWhile s
      · exact ⟨d.takeWhile isDIGIT, none, d.dropWhile isDIGIT, hsplit d, all_takeWhile d,
          (fun _ h => by cases h), Or.inl (hne hs), peek_dropWhile rfl d, fun _ => hpoint⟩
    · refine ⟨[], some (s.takeWhile isDIGIT), s.dropWhile isDIGIT, ?_,
        (fun _ h => by cases h), ?_, Or.inr ⟨_, rfl, hne hs⟩, peek_dropWhile rfl s,
        fun h => by cases h⟩
      · rw [pointText, List.nil_append, List.cons_append, ← hsplit s]
      · intro ds hds
        cases hds
        exact all_takeWhile s
  -- then the exponent
  by_cases hexp : ∃ (e : Exponent) (rest : List UInt8), r = e.text ++ rest
  · obtain ⟨e, rest, rfl⟩ := hexp
    have hdigits : Digits (e.digits ++ rest.takeWhile isDIGIT) := by
      intro c hc
      rcases List.mem_append.1 hc with hc | hc
      · exact e.areDigits c hc
      · exact all_takeWhile rest c hc
    refine ⟨⟨whole, fraction, some ⟨e.letter, e.sign, e.digits ++ rest.takeWhile isDIGIT, e.isE,
      hdigits, by simp [e.nonempty]⟩, hwhole, hfraction, hsome⟩, rest.dropWhile isDIGIT, ?_,
      ⟨peek_dropWhile rfl rest, fun _ h => (by cases h), fun h => (by cases h)⟩⟩
    rw [hd]
    simp [Number.text, exponentText, Exponent.text]
  · refine ⟨⟨whole, fraction, none, hwhole, hfraction, hsome⟩, r, ?_,
      ⟨hdigit, fun hf _ => hpoint hf, fun _ e rest hr => hexp ⟨e, rest, hr⟩⟩⟩
    rw [hd]
    simp [Number.text, exponentText]

theorem stops_of_spaces (h : Spaces behind) : n.Stops behind := by
  cases behind with
  | nil => exact ⟨rfl, fun _ _ => by decide, fun _ e v h => absurd h.symm (by simp [Exponent.text])⟩
  | cons c s =>
    obtain ⟨hdigit, hpoint, -, -, hletter⟩ := plain_of_space (h c List.mem_cons_self)
    refine ⟨hdigit, fun _ _ => hpoint, fun _ e rest hr => ?_⟩
    obtain ⟨rfl, -⟩ := List.cons.inj hr
    rw [e.isE] at hletter
    cases hletter

theorem number_first (n : Number) (behind : List UInt8) :
    isDIGIT (peek (n.text ++ behind)) = true ∨
      ∃ s, n.text ++ behind = 0x2E :: s ∧ isDIGIT (peek s) = true := by
  by_cases hwhole : n.whole = []
  · obtain ⟨ds, hf, hds⟩ := n.someDigit.resolve_left (not_not_intro hwhole)
    refine Or.inr ⟨ds ++ (exponentText n.exponent ++ behind), ?_, ?_⟩
    · simp [Number.text, hwhole, hf, pointText]
    · rw [peek_append hds]
      exact peek_all (n.fractionDigits ds hf) hds
  · left
    rw [Number.text, List.append_assoc, peek_append hwhole]
    exact peek_all n.wholeDigits hwhole

end Stages

end XPerl.Numeric
