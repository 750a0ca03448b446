import XPerl.Numeric.NumberText

/-! How `grok_infnan` reads an infinity or a NaN. -/

namespace XPerl.Numeric

open XPerl.Framework XPerl.Framework.Separated

section Letters

variable {c a : UInt8} {s rest : List UInt8} {ls : List UInt8}

theorem fold_eq (h : isAlphaFoldEq c a = true) (b : UInt8) :
    isAlphaFoldEq c b = isAlphaFoldEq a b := by
  have hc : c &&& 0xDF = a &&& 0xDF := beq_iff_eq.1 h
  rw [isAlphaFoldEq, isAlphaFoldEq, hc]

theorem spells_cons {l : UInt8} :
    Spells (l :: ls) s ↔ ∃ c t, s = c :: t ∧ isAlphaFoldEq c l = true ∧ Spells ls t := by
  unfold Spells
  rw [List.forall₂_cons_left_iff]
  constructor
  · rintro ⟨c, t, hc, ht, rfl⟩
    exact ⟨c, t, rfl, hc, ht⟩
  · rintro ⟨c, t, rfl, hc, ht⟩
    exact ⟨c, t, hc, ht, rfl⟩

theorem spells_nil : Spells [] s ↔ s = [] := List.forall₂_nil_left_iff

theorem first_letter {l : UInt8} {t : List UInt8} (ht : Spells (l :: ls) t)
    (hs : c :: s = t ++ rest) (b : UInt8) : isAlphaFoldEq c b = isAlphaFoldEq l b := by
  obtain ⟨d, t, rfl, hd, -⟩ := spells_cons.1 ht
  obtain ⟨rfl, -⟩ := List.cons.inj hs
  exact fold_eq hd b

theorem letters_eq_some :
    letters ls s = some rest ↔ ∃ t, Spells ls t ∧ s = t ++ rest := by
  induction ls generalizing s with
  | nil =>
    rw [letters, Option.some_inj]
    constructor
    · intro h
      exact ⟨[], .nil, h⟩
    · rintro ⟨t, ht, rfl⟩
      rw [spells_nil.1 ht, List.nil_append]
  | cons l ls ih =>
    unfold letters
    constructor
    · intro h
      split_ifs at h with hl
      cases s with
      | nil => cases hl
      | cons c s =>
        obtain ⟨t, ht, hs⟩ := ih.1 h
        exact ⟨c :: t, .cons hl ht, congrArg (c :: ·) hs⟩
    · rintro ⟨t, ht, rfl⟩
      obtain ⟨c, t, rfl, hc, ht⟩ := spells_cons.1 ht
      have hl : atLetter (c :: t ++ rest) l = true := hc
      rw [if_pos hl]
      exact ih.2 ⟨t, ht, rfl⟩

end Letters

section Words

variable {odh : Bool} {s rest : List UInt8} {word : Word}

theorem infnanWord_i {c : UInt8} (hc : isAlphaFoldEq c 0x49 = true) :
    infnanWord odh (c :: s) =
      ((letters [0x49, 0x4E, 0x46] (c :: s)).map (Word.inf, ·)).or
        (if odh then (letters [0x49, 0x4E, 0x44] (c :: s)).map (Word.ind, ·) else none) := by
  rcases s with _ | ⟨n, _ | ⟨f, u⟩⟩
  · simp [infnanWord, letters, atLetter, peek, hc]
  · by_cases hn : isAlphaFoldEq n 0x4E = true
    · simp [infnanWord, letters, atLetter, peek, stepOn, hc, hn]
    · simp [infnanWord, letters, atLetter, peek, hc, hn]
  · by_cases hn : isAlphaFoldEq n 0x4E = true
    · by_cases hf : isAlphaFoldEq f 0x46 = true
      · simp [infnanWord, letters, atLetter, peek, stepOn, hc, hn, hf]
      · by_cases hd : isAlphaFoldEq f 0x44 = true
        · cases odh <;> simp [infnanWord, letters, atLetter, peek, stepOn, hc, hn, hf, hd]
        · simp [infnanWord, letters, atLetter, peek, stepOn, hc, hn, hf, hd]
    · simp [infnanWord, letters, atLetter, peek, hc, hn]

theorem infnanWord_n {c : UInt8} (hc : isAlphaFoldEq c 0x49 = false) :
    infnanWord odh (c :: s) =
      (letters [0x4E, 0x41, 0x4E]
        (if isAlphaFoldEq c 0x53 || isAlphaFoldEq c 0x51 then s else c :: s)).map
          (Word.nan, ·) := by
  have hpeek : ¬isAlphaFoldEq (peek (c :: s)) 0x49 = true := by
    rw [peek, List.headD_cons, hc]
    exact Bool.false_ne_true
  have hletters (t : List UInt8) : (if !isAlphaFoldEq (peek t) 0x4E then none
      else if !atLetter t.tail 0x41 then none
      else if !atLetter t.tail.tail 0x4E then none else some (Word.nan, t.tail.tail.tail)) =
      (letters [0x4E, 0x41, 0x4E] t).map (Word.nan, ·) := by
    have hfirst : isAlphaFoldEq (peek t) 0x4E = atLetter t 0x4E := by
      cases t with
      | nil => rfl
      | cons c t => rfl
    rw [hfirst]
    simp only [letters]
    cases atLetter t 0x4E <;> cases atLetter t.tail 0x41 <;> cases atLetter t.tail.tail 0x4E <;> rfl
  unfold infnanWord
  rw [if_neg hpeek]
  simp only [peek, List.headD_cons, stepOn, List.tail_cons]
  simp only [← peek.eq_1]
  by_cases hsq : (isAlphaFoldEq c 0x53 || isAlphaFoldEq c 0x51) = true
  · rw [if_pos hsq, if_pos hsq]
    cases s with
    | nil => rfl
    | cons d s =>
      simp only [List.isEmpty_cons, Bool.false_eq_true, if_false, Option.bind_eq_bind,
        Option.bind_some]
      exact hletters (d :: s)
  · rw [if_neg hsq, if_neg hsq, Option.bind_eq_bind, Option.bind_some]
    exact hletters (c :: s)

theorem infnanWord_eq_some :
    infnanWord odh s = some (word, rest) ↔ ∃ t, Spelling odh word t ∧ s = t ++ rest := by
  cases s with
  | nil =>
    constructor
    · intro h
      cases odh <;> cases h
    · rintro ⟨t, ht, hnil⟩
      obtain ⟨rfl, -⟩ := List.append_eq_nil_iff.1 hnil.symm
      cases ht with
      | inf h => cases h
      | ind _ h => cases h
      | nan h => cases h
      | snan h => cases h
      | qnan h => cases h
  | cons c s =>
    by_cases hi : isAlphaFoldEq c 0x49 = true
    · rw [infnanWord_i hi, Option.or_eq_some_iff]
      constructor
      · rintro (h | ⟨-, h⟩)
        · obtain ⟨u, hu, heq⟩ := Option.map_eq_some_iff.1 h
          obtain ⟨rfl, rfl⟩ := Prod.mk.inj heq
          obtain ⟨t, ht, hs⟩ := letters_eq_some.1 hu
          exact ⟨t, .inf ht, hs⟩
        · cases odh with
          | false => cases h
          | true =>
            obtain ⟨u, hu, heq⟩ := Option.map_eq_some_iff.1 h
            obtain ⟨rfl, rfl⟩ := Prod.mk.inj heq
            obtain ⟨t, ht, hs⟩ := letters_eq_some.1 hu
            exact ⟨t, .ind rfl ht, hs⟩
      · rintro ⟨t, ht, hs⟩
        cases ht with
        | inf h =>
          rw [letters_eq_some.2 ⟨t, h, hs⟩]
          exact Or.inl rfl
        | ind hodh h =>
          have hnot : letters [0x49, 0x4E, 0x46] (c :: s) = none := by
            obtain ⟨_, t, rfl, -, h⟩ := spells_cons.1 h
            obtain ⟨_, t, rfl, -, h⟩ := spells_cons.1 h
            obtain ⟨d, t, rfl, hd, h⟩ := spells_cons.1 h
            have hf : isAlphaFoldEq d 0x46 = false := fold_eq hd 0x46
            obtain ⟨rfl, rfl⟩ := List.cons.inj hs
            simp [letters, atLetter, hf]
          rw [hnot, letters_eq_some.2 ⟨t, h, hs⟩, hodh]
          exact Or.inr ⟨rfl, rfl⟩
        | nan h => exact absurd hi (by rw [first_letter h hs]; decide)
        | snan h => exact absurd hi (by rw [first_letter h hs]; decide)
        | qnan h => exact absurd hi (by rw [first_letter h hs]; decide)
    · have hi' : isAlphaFoldEq c 0x49 = false := Bool.not_eq_true _ ▸ hi
      rw [infnanWord_n hi']
      constructor
      · intro h
        obtain ⟨u, hu, heq⟩ := Option.map_eq_some_iff.1 h
        obtain ⟨rfl, rfl⟩ := Prod.mk.inj heq
        obtain ⟨t, ht, hs⟩ := letters_eq_some.1 hu
        by_cases hS : isAlphaFoldEq c 0x53 = true
        · rw [hS, Bool.true_or, if_pos rfl] at hs
          exact ⟨c :: t, .snan (.cons hS ht), congrArg (c :: ·) hs⟩
        · by_cases hQ : isAlphaFoldEq c 0x51 = true
          · rw [hQ, Bool.or_true, if_pos rfl] at hs
            exact ⟨c :: t, .qnan (.cons hQ ht), congrArg (c :: ·) hs⟩
          · rw [if_neg (by simp [hS, hQ])] at hs
            exact ⟨t, .nan ht, hs⟩
      · rintro ⟨t, ht, hs⟩
        cases ht with
        | inf h => exact absurd (first_letter h hs 0x49) hi
        | ind _ h => exact absurd (first_letter h hs 0x49) hi
        | nan h =>
          have hsq : ¬(isAlphaFoldEq c 0x53 || isAlphaFoldEq c 0x51) = true := by
            rw [first_letter h hs, first_letter h hs]
            decide
          rw [if_neg hsq, letters_eq_some.2 ⟨t, h, hs⟩]
          rfl
        | snan h =>
          have hsq : (isAlphaFoldEq c 0x53 || isAlphaFoldEq c 0x51) = true := by
            rw [first_letter h hs, first_letter h hs]
            decide
          obtain ⟨d, t, rfl, -, h⟩ := spells_cons.1 h
          rw [if_pos hsq, letters_eq_some.2 ⟨t, h, (List.cons.inj hs).2⟩]
          rfl
        | qnan h =>
          have hsq : (isAlphaFoldEq c 0x53 || isAlphaFoldEq c 0x51) = true := by
            rw [first_letter h hs, first_letter h hs]
            decide
          obtain ⟨d, t, rfl, -, h⟩ := spells_cons.1 h
          rw [if_pos hsq, letters_eq_some.2 ⟨t, h, (List.cons.inj hs).2⟩]
          rfl

theorem infnanHash_eq_some (h : infnanHash s = some (odh, rest)) :
    ∃ hash : Hash, hash.odh = odh ∧ s = hash.text ++ rest := by
  have hstep {s u : List UInt8} (hs : stepOn s = some u) : s.tail = u := by
    unfold stepOn at hs
    split_ifs at hs
    exact Option.some_inj.1 hs
  have hcons {c : UInt8} {s u : List UInt8} (hne : c ≠ 0) (hp : peek s = c)
      (hs : stepOn s = some u) : s = c :: u := by
    cases s with
    | nil => exact absurd hp.symm hne
    | cons d s => exact (congrArg (· :: s) hp).trans (congrArg (c :: ·) (hstep hs))
  unfold infnanHash at h
  split_ifs at h with hone
  · obtain ⟨u, hu, h⟩ := Option.bind_eq_some_iff.1 h
    have hs := hcons (by decide) (beq_iff_eq.1 hone) hu
    have hhash {v : List UInt8} (h : (if peek v == 0x23 then (stepOn v).map (true, ·) else none) =
        some (odh, rest)) : true = odh ∧ v = 0x23 :: rest := by
      split_ifs at h with hp
      obtain ⟨w, hw, heq⟩ := Option.map_eq_some_iff.1 h
      obtain ⟨hodh, rfl⟩ := Prod.mk.inj heq
      exact ⟨hodh, hcons (by decide) (beq_iff_eq.1 hp) hw⟩
    by_cases hdot : peek u == 0x2E
    · rw [if_pos hdot] at h
      obtain ⟨v, hv, h⟩ := Option.bind_eq_some_iff.1 h
      obtain ⟨rfl, hrest⟩ := hhash h
      have hu := hcons (by decide) (beq_iff_eq.1 hdot) hv
      exact ⟨.long, rfl, by rw [hs, hu, hrest]; rfl⟩
    · rw [if_neg hdot] at h
      obtain ⟨rfl, hrest⟩ := hhash h
      exact ⟨.short, rfl, by rw [hs, hrest]; rfl⟩
  · obtain ⟨rfl, rfl⟩ := Prod.mk.inj (Option.some_inj.1 h)
    exact ⟨.without, rfl, rfl⟩

theorem infnanHash_text (hash : Hash) (hs : s ≠ []) (hone : peek s ≠ 0x31) :
    infnanHash (hash.text ++ s) = some (hash.odh, s) := by
  obtain ⟨c, s, rfl⟩ := List.exists_cons_of_ne_nil hs
  cases hash with
  | without =>
    have hc : c ≠ 0x31 := hone
    simp [infnanHash, Hash.text, Hash.odh, peek, hc]
  | short => rfl
  | long => rfl

theorem Spelling.first {t : List UInt8} (h : Spelling odh word t) :
    ∃ c u, t = c :: u ∧ startsInfnan c = true := by
  cases h with
  | inf h =>
    obtain ⟨c, u, rfl, hc, -⟩ := spells_cons.1 h
    exact ⟨c, u, rfl, by simp [startsInfnan, hc]⟩
  | ind _ h =>
    obtain ⟨c, u, rfl, hc, -⟩ := spells_cons.1 h
    exact ⟨c, u, rfl, by simp [startsInfnan, hc]⟩
  | nan h =>
    obtain ⟨c, u, rfl, hc, -⟩ := spells_cons.1 h
    exact ⟨c, u, rfl, by simp [startsInfnan, hc]⟩
  | snan h =>
    obtain ⟨c, u, rfl, hc, -⟩ := spells_cons.1 h
    exact ⟨c, u, rfl, by simp [startsInfnan, hc]⟩
  | qnan h =>
    obtain ⟨c, u, rfl, hc, -⟩ := spells_cons.1 h
    exact ⟨c, u, rfl, by simp [startsInfnan, hc]⟩

theorem Spelling.length {t : List UInt8} (h : Spelling odh word t) : 3 ≤ t.length := by
  cases h with
  | inf h => exact h.length_eq.le
  | ind _ h => exact h.length_eq.le
  | nan h => exact h.length_eq.le
  | snan h => exact Nat.le_of_succ_le h.length_eq.le
  | qnan h => exact Nat.le_of_succ_le h.length_eq.le

theorem plain_of_startsInfnan {c : UInt8} (h : startsInfnan c = true) :
    isSPACE c = false ∧ isDIGIT c = false ∧ c ≠ 0x2E ∧ c ≠ 0x2B ∧ c ≠ 0x2D ∧
      isAlphaFoldEq c 0x65 = false := by
  have hall : ∀ c : UInt8, (!startsInfnan c || (!isSPACE c && !isDIGIT c && c != 0x2E &&
      c != 0x2B && c != 0x2D && !isAlphaFoldEq c 0x65)) = true := forall_byte (by decide +kernel)
  simpa [h, and_assoc] using hall c

/-- The sign, the hash and the word; `none` is `return 0`. -/
def infnanHead (d : List UInt8) : Option (Bool × Bool × Word × List UInt8) := do
  let (neg, s) ← infnanSign d
  let (odh, s) ← infnanHash s
  let (word, s) ← infnanWord odh s
  return (neg, odh, word, s)

theorem infnanHead_eq_some {neg : Bool} (hplus : peek s ≠ 0x2B) (hminus : peek s ≠ 0x2D) :
    infnanHead s = some (neg, odh, word, rest) ↔ neg = false ∧
      ∃ (hash : Hash) (t : List UInt8), hash.odh = odh ∧ Spelling odh word t ∧
        s = hash.text ++ (t ++ rest) := by
  have hsign : infnanSign s = some (false, s) := by simp [infnanSign, hplus, hminus]
  have hhead : infnanHead s = (infnanHash s).bind fun r =>
      (infnanWord r.1 r.2).bind fun w => some (false, r.1, w.1, w.2) := by
    unfold infnanHead
    rw [hsign]
    rfl
  rw [hhead]
  constructor
  · intro h
    obtain ⟨⟨odh', u⟩, hhash, h⟩ := Option.bind_eq_some_iff.1 h
    obtain ⟨⟨word', v⟩, hword, h⟩ := Option.bind_eq_some_iff.1 h
    obtain ⟨hneg, rfl, rfl, rfl⟩ : false = neg ∧ odh' = odh ∧ word' = word ∧ v = rest := by
      simpa using h
    obtain ⟨hash, hodh, hs⟩ := infnanHash_eq_some hhash
    obtain ⟨t, ht, hu⟩ := infnanWord_eq_some.1 hword
    have hrest : u = t ++ v := hu
    exact ⟨hneg.symm, hash, t, hodh, ht, by rw [hs, hrest]⟩
  · rintro ⟨rfl, hash, t, rfl, ht, rfl⟩
    obtain ⟨c, u, rfl, hc⟩ := ht.first
    have hone : c ≠ 0x31 := by
      rintro rfl
      cases hc
    have hhash : infnanHash (hash.text ++ (c :: u ++ rest)) = some (hash.odh, c :: u ++ rest) :=
      infnanHash_text hash (by simp) hone
    rw [hhash, Option.bind_some, infnanWord_eq_some.2 ⟨c :: u, ht, rfl⟩]
    rfl

end Words

section Tails

variable {odh : Bool} {s : List UInt8} {flags : NumberFlags}

/-- The flags, with TRAILING unless the whole text is as it should be. -/
def Judged (flags next : NumberFlags) (whole : Prop) : Prop :=
  (whole ∧ next = flags) ∨ (¬whole ∧ next = { flags with trailing := true })

theorem Judged.congr {next : NumberFlags} {p q : Prop} (h : Judged flags next p) (hpq : p ↔ q) :
    Judged flags next q := by
  rwa [← propext hpq]

theorem okCheckSpace_judged (flags : NumberFlags) (s : List UInt8) :
    Judged flags (okCheckSpace flags s).1 (Spaces s) := by
  unfold okCheckSpace
  by_cases hs : Spaces s
  · have hdrop : s.dropWhile isSPACE = [] := List.dropWhile_eq_nil_iff.2 hs
    refine Or.inl ⟨hs, ?_⟩
    simp only [hdrop, List.isEmpty_nil, Bool.not_true, Bool.or_false]
  · have hdrop : s.dropWhile isSPACE ≠ [] := fun h => hs (List.dropWhile_eq_nil_iff.1 h)
    refine Or.inr ⟨hs, ?_⟩
    simp [hdrop]

theorem zeros_spaces : (∃ t behind, Zeros t ∧ Spaces behind ∧ s = t ++ behind) ↔
    Spaces (s.dropWhile (· == 0x30)) := by
  constructor
  · rintro ⟨t, behind, ht, hb, rfl⟩ c hc
    rw [List.dropWhile_append_of_pos fun d hd => beq_iff_eq.2 (ht d hd)] at hc
    exact hb c ((List.dropWhile_suffix _).subset hc)
  · intro h
    refine ⟨s.takeWhile (· == 0x30), s.dropWhile (· == 0x30), fun c hc => ?_, h,
      List.takeWhile_append_dropWhile.symm⟩
    exact beq_iff_eq.1 (all_takeWhile s c hc)

theorem ends_ind : Ends odh .ind s ↔ Spaces (s.dropWhile (· == 0x30)) := by
  rw [← zeros_spaces]
  constructor
  · rintro ⟨t, behind, ht, hb, hs⟩
    cases ht with
    | indZeros hz => exact ⟨t, behind, hz, hb, hs⟩
  · rintro ⟨t, behind, hz, hb, hs⟩
    exact ⟨t, behind, .indZeros hz, hb, hs⟩

theorem ends_inf : Ends odh .inf s ↔ Spaces s ∨
    (∃ t behind, Spells [0x49, 0x4E, 0x49, 0x54, 0x59] t ∧ Spaces behind ∧ s = t ++ behind) ∨
      (odh = true ∧ Spaces (s.dropWhile (· == 0x30))) := by
  rw [← zeros_spaces]
  constructor
  · rintro ⟨t, behind, ht, hb, hs⟩
    cases ht with
    | inf => exact Or.inl (hs ▸ hb)
    | inity h => exact Or.inr (Or.inl ⟨t, behind, h, hb, hs⟩)
    | infZeros hodh hz => exact Or.inr (Or.inr ⟨hodh, t, behind, hz, hb, hs⟩)
  · rintro (h | ⟨t, behind, h, hb, hs⟩ | ⟨hodh, t, behind, hz, hb, hs⟩)
    · exact ⟨[], s, .inf, h, rfl⟩
    · exact ⟨t, behind, .inity h, hb, hs⟩
    · exact ⟨t, behind, .infZeros hodh hz, hb, hs⟩

theorem afterInf_judged (flags : NumberFlags) (odh : Bool) (s : List UInt8) :
    Judged flags (afterInf odh flags s).1 (Ends odh .inf s) := by
  unfold afterInf
  by_cases hi : atLetter s 0x49 = true
  · rw [if_pos hi]
    cases s with
    | nil => cases hi
    | cons c s =>
      have hc : isAlphaFoldEq c 0x49 = true := hi
      have hplain : ∀ c : UInt8, (!isAlphaFoldEq c 0x49 || (!isSPACE c && c != 0x30)) = true :=
        forall_byte (by decide +kernel)
      have hne : isSPACE c = false ∧ c ≠ 0x30 := by simpa [hc] using hplain c
      have hends : Ends odh .inf (c :: s) ↔
          ∃ u, letters [0x4E, 0x49, 0x54, 0x59] s = some u ∧ Spaces u := by
        rw [ends_inf]
        constructor
        · rintro (h | ⟨t, behind, ht, hb, hs⟩ | ⟨-, h⟩)
          · rw [h c List.mem_cons_self] at hne
            cases hne.1
          · obtain ⟨d, t, rfl, -, ht⟩ := spells_cons.1 ht
            exact ⟨behind, letters_eq_some.2 ⟨t, ht, (List.cons.inj hs).2⟩, hb⟩
          · rw [List.dropWhile_cons_of_neg (by simp [hne.2])] at h
            rw [h c List.mem_cons_self] at hne
            cases hne.1
        · rintro ⟨u, hu, hspaces⟩
          obtain ⟨t, ht, rfl⟩ := letters_eq_some.1 hu
          exact Or.inr (Or.inl ⟨c :: t, u, .cons hc ht, hspaces, rfl⟩)
      rw [List.tail_cons]
      cases hu : letters [0x4E, 0x49, 0x54, 0x59] s with
      | none =>
        refine Or.inr ⟨?_, rfl⟩
        rw [hends, hu]
        rintro ⟨u, h, -⟩
        cases h
      | some u =>
        refine (okCheckSpace_judged flags u).congr ?_
        rw [hends, hu]
        simp
  · rw [if_neg hi]
    have hno : ¬∃ t behind, Spells [0x49, 0x4E, 0x49, 0x54, 0x59] t ∧ Spaces behind ∧
        s = t ++ behind := by
      rintro ⟨t, behind, ht, -, rfl⟩
      obtain ⟨c, t, rfl, hc, -⟩ := spells_cons.1 ht
      exact hi hc
    cases odh with
    | false =>
      refine (okCheckSpace_judged flags s).congr ?_
      rw [ends_inf]
      simp only [hno, Bool.false_eq_true, false_and, or_false]
    | true =>
      refine (okCheckSpace_judged flags (s.dropWhile (· == 0x30))).congr ?_
      rw [ends_inf]
      have hsub (h : Spaces s) : Spaces (s.dropWhile (· == 0x30)) := fun c hc =>
        h c ((List.dropWhile_suffix _).subset hc)
      simp only [hno, false_or, true_and]
      exact ⟨Or.inr, fun h => h.elim hsub id⟩

end Tails

section Payloads

variable {number : List UInt8 → Option NumberFlags} {len : Nat} {b : Base} {letter x : UInt8}
  {p s t : List UInt8}

/-- How the number of a payload is read: decimal digits and white space at least. -/
structure ReadsDecimals (number : List UInt8 → Option NumberFlags) (len : Nat) : Prop where
  total : ∀ content, content.length < len → ∃ flags, number content = some flags
  decimal : ∀ ds behind flags, Digits ds → Spaces behind → number (ds ++ behind) = some flags →
    ((flags.notInt = false ∧ flags.inUV = true) ↔ ds ≠ [] ∧ numberValue .ten ds < 2 ^ 64)

def payloadFlags : ScanFlags := { allowUnderscores := true }

theorem isNumber_mem {c : UInt8} (h : IsNumber b payloadFlags t) (hc : c ∈ t) :
    b.isCC c = true ∨ c = underscore := h.numerals.mem hc

theorem Payload.mem {c : UInt8} (h : Payload p) (hc : c ∈ p) : c ≠ 0 ∧ c ≠ 0x29 := by
  have hdigit : ∀ c : UInt8, (!isXDIGIT c || (c != 0 && c != 0x29)) = true :=
    forall_byte (by decide +kernel)
  have hletters : ∀ c : UInt8, (!(isAlphaFoldEq c 0x78 || isAlphaFoldEq c 0x62) ||
      (c != 0 && c != 0x29)) = true := forall_byte (by decide +kernel)
  have hcc {b : Base} {c : UInt8} (h : b.isCC c = true) : c ≠ 0 ∧ c ≠ 0x29 := by
    have hall : ∀ c : UInt8, (!b.isCC c || isXDIGIT c) = true := by
      refine forall_byte ?_
      cases b <;> decide +kernel
    have hx : isXDIGIT c = true := by simpa [h] using hall c
    simpa [hx] using hdigit c
  have hnumber {b : Base} {t : List UInt8} (h : IsNumber b payloadFlags t) (hc : c ∈ t) :
      c ≠ 0 ∧ c ≠ 0x29 := by
    rcases isNumber_mem h hc with h | rfl
    · exact hcc h
    · decide
  cases h with
  | decimal hds => exact hcc (b := .ten) (hds c hc)
  | @hex x d ds hx hd hn _ =>
    rcases List.mem_cons.1 hc with rfl | hc
    · decide
    · rcases List.mem_cons.1 hc with rfl | hc
      · simpa [hx] using hletters c
      · exact hnumber hn hc
  | @bin x d ds hx hd hn _ =>
    rcases List.mem_cons.1 hc with rfl | hc
    · decide
    · rcases List.mem_cons.1 hc with rfl | hc
      · simpa [hx] using hletters c
      · exact hnumber hn hc

theorem Payload.ne_nil (h : Payload p) : p ≠ [] := by
  cases h with
  | decimal _ hne => exact hne
  | hex => exact List.cons_ne_nil _ _
  | bin => exact List.cons_ne_nil _ _

theorem numberText_spaces (ht : IsNumber b payloadFlags t) (hs : Spaces s) :
    numberText b payloadFlags (t ++ s) = t := by
  have hstart : mayStart payloadFlags (t ++ s) = true := by
    cases t ++ s with
    | nil => rfl
    | cons c u => rfl
  have hplain : ∀ c : UInt8, (!isSPACE c || (!b.isCC c && c != underscore)) = true := by
    refine forall_byte ?_
    cases b <;> decide +kernel
  have hrun : (b.script payloadFlags.underscores).run s = [] := by
    cases s with
    | nil => rfl
    | cons c s =>
      have hc : b.isCC c = false ∧ c ≠ underscore := by
        simpa [hs c List.mem_cons_self] using hplain c
      exact run_eq_nil hc.1 fun u hu _ => absurd (List.cons.inj hu).1 hc.2
  rw [numberText, if_pos hstart, run_append ht.numerals, hrun, List.append_nil]

theorem grokBinHex_payload (hletter : isAlphaFoldEq 0x30 letter = false)
    (hx : isAlphaFoldEq x letter = true) (d : UInt8) (s : List UInt8) :
    ∃ scanned, grokBinHex noFloats b letter payloadFlags false (0x30 :: x :: d :: s) =
        some scanned ∧
      (0x30 :: x :: d :: s).drop scanned.len =
        (d :: s).drop (numberText b payloadFlags (d :: s)).length ∧
      (scanned.flags.greaterThanUVMax = false ↔
        numberValue b (numberText b payloadFlags (d :: s)) < 2 ^ 64) := by
  have hoffset : prefixOffset payloadFlags letter (0x30 :: x :: d :: s) = 2 := by
    simp [prefixOffset, payloadFlags, hletter, hx]
  have htwo : 2 ≤ (0x30 :: x :: d :: s).length := by simp
  obtain ⟨scanned, hscan, hlen, houtcome⟩ :=
    grokUintByBase_outcome noFloats b payloadFlags false htwo
  rw [List.drop_succ_cons, List.drop_succ_cons, List.drop_zero] at hlen houtcome
  refine ⟨scanned, ?_, ?_, ?_⟩
  · rw [grokBinHex, hoffset, hscan]
  · rw [hlen, Nat.add_comm, List.drop_succ_cons, List.drop_succ_cons]
  · cases houtcome with
    | exact hvalue hgreater =>
      rw [← hvalue]
      exact iff_of_true hgreater scanned.value.toNat_lt
    | tooLarge hover _ _ hgreater =>
      have hlarge := hover.large
      rw [hgreater]
      simp only [Bool.true_eq_false, false_iff]
      omega
    | discarded _ hset => cases hset

theorem based_iff (hletter : isAlphaFoldEq 0x30 letter = false)
    (hx : isAlphaFoldEq x letter = true) {d : UInt8} (hd : b.isCC d = true) (s : List UInt8)
    (hbuild : ∀ ds, IsNumber b payloadFlags (d :: ds) → numberValue b (d :: ds) < 2 ^ 64 →
      Payload (0x30 :: x :: d :: ds))
    (hinv : ∀ p spaces, Payload p → Spaces spaces → 0x30 :: x :: d :: s = p ++ spaces →
      ∃ ds, p = 0x30 :: x :: ds ∧ IsNumber b payloadFlags ds ∧ numberValue b ds < 2 ^ 64) :
    ∃ scanned, grokBinHex noFloats b letter payloadFlags false (0x30 :: x :: d :: s) =
        some scanned ∧
      ((scanned.flags.greaterThanUVMax = false ∧
          Spaces ((0x30 :: x :: d :: s).drop scanned.len)) ↔
        ∃ p spaces, Payload p ∧ Spaces spaces ∧ 0x30 :: x :: d :: s = p ++ spaces) := by
  obtain ⟨scanned, hscan, hdrop, hgreater⟩ := grokBinHex_payload (b := b) hletter hx d s
  refine ⟨scanned, hscan, ?_⟩
  rw [hdrop, hgreater]
  have hnumber := isNumber_numberText b payloadFlags (d :: s)
  obtain ⟨rest, hrest⟩ := numberText_prefix b payloadFlags (d :: s)
  constructor
  · rintro ⟨hfits, hspaces⟩
    have hne : ∃ ds, numberText b payloadFlags (d :: s) = d :: ds := by
      have hrun : (b.script payloadFlags.underscores).run (d :: s) = d :: _ := run_cons_digit hd
      exact ⟨_, hrun⟩
    obtain ⟨ds, hds⟩ := hne
    rw [hds] at hfits hspaces hnumber hrest
    refine ⟨_, rest, hbuild ds hnumber hfits, ?_, ?_⟩
    · rwa [← hrest, List.drop_left] at hspaces
    · rw [← hrest]
      rfl
  · rintro ⟨p, spaces, hp, hs, heq⟩
    obtain ⟨ds, rfl, hn, hfits⟩ := hinv p spaces hp hs heq
    have hcons : d :: s = ds ++ spaces := (List.cons.inj (List.cons.inj heq).2).2
    rw [hcons, numberText_spaces hn hs, List.drop_left]
    exact ⟨hfits, hs⟩

theorem not_digits_spaces (hx : isAlphaFoldEq x 0x78 = true ∨ isAlphaFoldEq x 0x62 = true)
    {ds spaces : List UInt8} (hds : Digits ds) (hs : Spaces spaces) {c : UInt8}
    (h : c :: x :: s = ds ++ spaces) : False := by
  have hall : ∀ c : UInt8, (!(isAlphaFoldEq c 0x78 || isAlphaFoldEq c 0x62) ||
      (!isDIGIT c && !isSPACE c)) = true := forall_byte (by decide +kernel)
  have hplain : isDIGIT x = false ∧ isSPACE x = false := by
    rcases hx with hx | hx <;> simpa [hx] using hall x
  have hmem : x ∈ ds ++ spaces := by
    rw [← h]
    exact List.mem_cons_of_mem c List.mem_cons_self
  rcases List.mem_append.1 hmem with hmem | hmem
  · rw [hds x hmem] at hplain
    cases hplain.1
  · rw [hs x hmem] at hplain
    cases hplain.2

theorem infnanPayload_spec (hn : ReadsDecimals number len) {c : UInt8} {rest : List UInt8}
    (hlen : (c :: rest).length < len) :
    ∃ nantype s, infnanPayload number (c :: rest) = some (nantype, s) ∧
      ((nantype.notInt = false ∧ nantype.inUV = true ∧ Spaces s) ↔
        ∃ p spaces, Payload p ∧ Spaces spaces ∧ c :: rest = p ++ spaces) := by
  unfold infnanPayload
  dsimp only
  have hcond {letter : UInt8} {digit : Bool}
      (h : (c == 0x30 && decide (2 < (c :: rest).length) && isAlphaFoldEq (peek rest) letter &&
        digit) = true) :
      c = 0x30 ∧ (∃ x d s, rest = x :: d :: s ∧ isAlphaFoldEq x letter = true) ∧ digit = true := by
    simp only [Bool.and_eq_true, beq_iff_eq, decide_eq_true_eq] at h
    obtain ⟨⟨⟨hc, hlen⟩, hx⟩, hdigit⟩ := h
    rcases rest with _ | ⟨x, _ | ⟨d, s⟩⟩
    · simp at hlen
    · simp at hlen
    · exact ⟨hc, ⟨x, d, s, rfl, hx⟩, hdigit⟩
  split_ifs with hhex hbin
  · obtain ⟨rfl, ⟨x, d, s, rfl, hx⟩, hd⟩ := hcond hhex
    have hd' : Base.sixteen.isCC d = true := hd
    obtain ⟨scanned, hscan, hiff⟩ := based_iff (b := .sixteen) (by decide) hx hd' s
      (fun ds => .hex hx hd') (by
        intro p spaces hp hs heq
        cases hp with
        | decimal hds => exact (not_digits_spaces (Or.inl hx) hds hs heq).elim
        | hex _ _ hnumber hfits =>
          obtain ⟨rfl, -⟩ := List.cons.inj (List.cons.inj heq).2
          exact ⟨_, rfl, hnumber, hfits⟩
        | bin hb =>
          obtain ⟨rfl, -⟩ := List.cons.inj (List.cons.inj heq).2
          rw [fold_eq hx] at hb
          cases hb)
    refine ⟨_, _, congrArg (Option.map _) hscan, ?_⟩
    rw [← hiff]
    simp
  · obtain ⟨rfl, ⟨x, d, s, rfl, hx⟩, hd⟩ := hcond hbin
    have hd' : Base.two.isCC d = true := hd
    obtain ⟨scanned, hscan, hiff⟩ := based_iff (b := .two) (by decide) hx hd' s
      (fun ds => .bin hx hd') (by
        intro p spaces hp hs heq
        cases hp with
        | decimal hds => exact (not_digits_spaces (Or.inr hx) hds hs heq).elim
        | hex hh =>
          obtain ⟨rfl, -⟩ := List.cons.inj (List.cons.inj heq).2
          rw [fold_eq hx] at hh
          cases hh
        | bin _ _ hnumber hfits =>
          obtain ⟨rfl, -⟩ := List.cons.inj (List.cons.inj heq).2
          exact ⟨_, rfl, hnumber, hfits⟩)
    refine ⟨_, _, congrArg (Option.map _) hscan, ?_⟩
    rw [← hiff]
    simp
  · obtain ⟨nantype, hnumber⟩ := hn.total (c :: rest) hlen
    refine ⟨nantype, (c :: rest).dropWhile isDIGIT, by rw [hnumber]; rfl, ?_⟩
    constructor
    · rintro ⟨hint, huv, hspaces⟩
      have hsplit : (c :: rest).takeWhile isDIGIT ++ (c :: rest).dropWhile isDIGIT = c :: rest :=
        List.takeWhile_append_dropWhile
      rw [← hsplit] at hnumber
      obtain ⟨hne, hfits⟩ :=
        (hn.decimal _ _ nantype (all_takeWhile _) hspaces hnumber).1 ⟨hint, huv⟩
      exact ⟨_, _, .decimal (all_takeWhile _) hne hfits, hspaces, hsplit.symm⟩
    · rintro ⟨p, spaces, hp, hs, heq⟩
      cases hp with
      | decimal hds hne hfits =>
        have hstop : isDIGIT (peek spaces) = false := by
          cases spaces with
          | nil => rfl
          | cons c s => exact (plain_of_space (hs c List.mem_cons_self)).1
        rw [heq] at hnumber ⊢
        rw [dropWhile_stop hds hstop]
        obtain ⟨hint, huv⟩ := (hn.decimal _ _ nantype hds hs hnumber).2 ⟨hne, hfits⟩
        exact ⟨hint, huv, hs⟩
      | hex hx hd _ _ =>
        obtain ⟨rfl, rfl⟩ := List.cons.inj heq
        have hd' : isXDIGIT _ = true := hd
        simp [peek, hx, hd'] at hhex
      | bin hx hd _ _ =>
        obtain ⟨rfl, rfl⟩ := List.cons.inj heq
        have hd' : (_ == (0x30 : UInt8) || _ == (0x31 : UInt8)) = true := hd
        simp [peek, hx] at hbin
        simp [hbin] at hd'

end Payloads

section NaNs

variable {number : List UInt8 → Option NumberFlags} {len : Nat} {odh : Bool} {s u : List UInt8}
  {flags : NumberFlags}

def NanEnd (u : List UInt8) : Prop :=
  Spaces u ∨ ∃ p spaces behind, Payload p ∧ Spaces spaces ∧ Spaces behind ∧
    u = 0x28 :: (p ++ (spaces ++ 0x29 :: behind))

def isQuiet (c : UInt8) : Bool := isAlphaFoldEq c 0x71 || isAlphaFoldEq c 0x73

theorem quiet_iff : Quiet s ↔ s = [] ∨ ∃ c, s = [c] ∧ isQuiet c = true := by
  unfold Quiet isQuiet
  simp only [spells_cons, spells_nil, Bool.or_eq_true]
  constructor
  · rintro (h | ⟨c, t, rfl, hc, rfl⟩ | ⟨c, t, rfl, hc, rfl⟩)
    · exact Or.inl h
    · exact Or.inr ⟨c, rfl, Or.inl hc⟩
    · exact Or.inr ⟨c, rfl, Or.inr hc⟩
  · rintro (h | ⟨c, rfl, hc | hc⟩)
    · exact Or.inl h
    · exact Or.inr (Or.inl ⟨c, [], rfl, hc, rfl⟩)
    · exact Or.inr (Or.inr ⟨c, [], rfl, hc, rfl⟩)

theorem NanEnd.first (h : NanEnd u) : isQuiet (peek u) = false := by
  rcases h with h | ⟨p, spaces, behind, -, -, -, rfl⟩
  · cases u with
    | nil => rfl
    | cons c u =>
      have hall : ∀ c : UInt8, (!isSPACE c || !isQuiet c) = true := forall_byte (by decide +kernel)
      have hc : isQuiet c = false := by simpa [h c List.mem_cons_self] using hall c
      exact hc
  · have hparen : isQuiet 0x28 = false := by decide
    exact hparen

theorem ends_nan :
    Ends odh .nan s ↔ NanEnd (if isQuiet (peek s) then s.tail else s) := by
  have hsplit : Ends odh .nan s ↔ ∃ q u, Quiet q ∧ NanEnd u ∧ s = q ++ u := by
    constructor
    · rintro ⟨t, behind, ht, hb, rfl⟩
      cases ht with
      | quiet hq => exact ⟨t, behind, hq, Or.inl hb, rfl⟩
      | @payload q p spaces hq hp hs =>
        refine ⟨q, 0x28 :: (p ++ (spaces ++ 0x29 :: behind)), hq,
          Or.inr ⟨p, spaces, behind, hp, hs, hb, rfl⟩, ?_⟩
        simp
    · rintro ⟨q, u, hq, hu, rfl⟩
      rcases hu with hu | ⟨p, spaces, behind, hp, hs, hb, rfl⟩
      · exact ⟨q, u, .quiet hq, hu, rfl⟩
      · refine ⟨_, behind, .payload hq hp hs, hb, ?_⟩
        simp
  rw [hsplit]
  constructor
  · rintro ⟨q, u, hq, hu, rfl⟩
    rcases quiet_iff.1 hq with rfl | ⟨c, rfl, hc⟩
    · rwa [List.nil_append, hu.first]
    · have hpeek : isQuiet (peek ([c] ++ u)) = true := hc
      rwa [if_pos hpeek]
  · intro h
    by_cases hquiet : isQuiet (peek s) = true
    · rw [if_pos hquiet] at h
      cases s with
      | nil => cases hquiet
      | cons c s => exact ⟨[c], s, quiet_iff.2 (Or.inr ⟨c, rfl, hquiet⟩), h, rfl⟩
    · rw [if_neg hquiet] at h
      exact ⟨[], s, Or.inl rfl, h, rfl⟩

theorem payload_split {p spaces behind rest : List UInt8} {c : UInt8} (hp : Payload p)
    (hs : Spaces spaces) (h : c :: rest = p ++ (spaces ++ 0x29 :: behind)) :
    c :: rest.takeWhile (fun t => t != 0 && t != 0x29) = p ++ spaces ∧
      rest.dropWhile (fun t => t != 0 && t != 0x29) = 0x29 :: behind := by
  obtain ⟨d, p, rfl⟩ := List.exists_cons_of_ne_nil hp.ne_nil
  obtain ⟨rfl, rfl⟩ := List.cons.inj h
  have hinner : ∀ t ∈ p ++ spaces, (t != 0 && t != 0x29) = true := by
    intro t ht
    rcases List.mem_append.1 ht with ht | ht
    · simpa using hp.mem (List.mem_cons_of_mem c ht)
    · have hall : ∀ c : UInt8, (!isSPACE c || (c != 0 && c != 0x29)) = true :=
        forall_byte (by decide +kernel)
      simpa [hs t ht] using hall t
  have hstop : (fun t : UInt8 => t != 0 && t != 0x29) (peek (0x29 :: behind)) = false := rfl
  rw [List.append_eq, ← List.append_assoc, takeWhile_stop hinner hstop, dropWhile_stop hinner hstop]
  exact ⟨rfl, rfl⟩

theorem nanEnd_paren : NanEnd (0x28 :: u) ↔ ∃ p spaces behind, Payload p ∧ Spaces spaces ∧
    Spaces behind ∧ u = p ++ (spaces ++ 0x29 :: behind) := by
  constructor
  · rintro (h | ⟨p, spaces, behind, hp, hs, hb, h⟩)
    · have hparen : isSPACE 0x28 = true := h 0x28 List.mem_cons_self
      cases hparen
    · exact ⟨p, spaces, behind, hp, hs, hb, (List.cons.inj h).2⟩
  · rintro ⟨p, spaces, behind, hp, hs, hb, rfl⟩
    exact Or.inr ⟨p, spaces, behind, hp, hs, hb, rfl⟩

theorem afterNan_paren (hn : ReadsDecimals number len) (flags : NumberFlags)
    (hlen : (0x28 :: u).length < len) :
    ∃ next t, afterNan number flags (0x28 :: u) = some (next, t) ∧
      Judged flags next (NanEnd (0x28 :: u)) := by
  have hquiet : (isAlphaFoldEq (peek (0x28 :: u)) 0x71 || isAlphaFoldEq (peek (0x28 :: u)) 0x73) =
      false := by
    have hparen : isQuiet 0x28 = false := by decide
    exact hparen
  have hfirst : (peek (0x28 :: u) == 0x28) = true := by simp [peek]
  rw [nanEnd_paren]
  unfold afterNan
  simp only [hquiet, List.isEmpty_cons, Bool.false_eq_true, if_false, Bool.false_and, hfirst,
    if_true, List.tail_cons]
  cases u with
  | nil =>
    refine ⟨_, _, rfl, Or.inr ⟨?_, rfl⟩⟩
    rintro ⟨p, spaces, behind, hp, -, -, h⟩
    exact hp.ne_nil (List.append_eq_nil_iff.1 h.symm).1
  | cons c rest =>
    dsimp only
    have hinner : (c :: rest.takeWhile fun t => t != 0 && t != 0x29).length < len := by
      have htake := (List.takeWhile_sublist (l := rest) fun t => t != 0 && t != 0x29).length_le
      simp only [List.length_cons] at hlen ⊢
      omega
    have hsplit : rest.takeWhile (fun t => t != 0 && t != 0x29) ++
        rest.dropWhile (fun t => t != 0 && t != 0x29) = rest := List.takeWhile_append_dropWhile
    cases hafter : rest.dropWhile (fun t => t != 0 && t != 0x29) with
    | nil =>
      refine ⟨_, _, rfl, Or.inr ⟨?_, rfl⟩⟩
      rintro ⟨p, spaces, behind, hp, hs, -, h⟩
      rw [(payload_split hp hs h).2] at hafter
      cases hafter
    | cons t behind =>
      dsimp only
      by_cases hclose : (t == 0x29) = true
      · rw [if_pos hclose]
        obtain rfl : t = 0x29 := beq_iff_eq.1 hclose
        obtain ⟨nantype, v, hpayload, hiff⟩ := infnanPayload_spec hn hinner
        simp only [hpayload, Option.bind_eq_bind, Option.bind_some]
        by_cases hok : nantype.notInt = false ∧ nantype.inUV = true ∧ Spaces v
        · have hdrop : v.dropWhile isSPACE = [] := List.dropWhile_eq_nil_iff.2 hok.2.2
          refine ⟨(okCheckSpace flags behind).1, (okCheckSpace flags behind).2, ?_,
            (okCheckSpace_judged flags behind).congr ⟨fun hb => ?_, ?_⟩⟩
          · simp [hok.1, hok.2.1, hdrop]
          · obtain ⟨p, spaces, hp, hs, heq⟩ := hiff.1 hok
            refine ⟨p, spaces, behind, hp, hs, hb, ?_⟩
            rw [← List.append_assoc, ← heq, List.cons_append, ← hafter, hsplit]
          · rintro ⟨p, spaces, last, hp, hs, hb, h⟩
            have hlast := (payload_split hp hs h).2
            rw [hafter] at hlast
            obtain ⟨-, rfl⟩ := List.cons.inj hlast
            exact hb
        · refine ⟨{ flags with trailing := true }, 0x28 :: c :: rest, ?_, Or.inr ⟨?_, rfl⟩⟩
          · split_ifs with hint hspaces
            · rfl
            · rfl
            · refine absurd ⟨?_, ?_, List.dropWhile_eq_nil_iff.1 ?_⟩ hok
              · cases hnot : nantype.notInt <;> simp_all
              · cases huv : nantype.inUV <;> simp_all
              · simpa using hspaces
          · rintro ⟨p, spaces, last, hp, hs, -, h⟩
            exact hok (hiff.2 ⟨p, spaces, hp, hs, (payload_split hp hs h).1⟩)
      · rw [if_neg hclose]
        refine ⟨_, _, rfl, Or.inr ⟨?_, rfl⟩⟩
        rintro ⟨p, spaces, last, hp, hs, -, h⟩
        have hlast := (payload_split hp hs h).2
        rw [hafter] at hlast
        obtain ⟨rfl, -⟩ := List.cons.inj hlast
        exact hclose rfl

theorem nanEnd_spaces (h : peek u ≠ 0x28) : NanEnd u ↔ Spaces u := by
  refine ⟨?_, Or.inl⟩
  rintro (hu | ⟨p, spaces, behind, -, -, -, rfl⟩)
  · exact hu
  · exact absurd rfl h

theorem afterNan_judged (hn : ReadsDecimals number len) (flags : NumberFlags)
    (hlen : s.length < len) :
    ∃ next t, afterNan number flags s = some (next, t) ∧
      Judged flags next (Ends odh .nan s) := by
  rw [ends_nan]
  cases s with
  | nil => exact ⟨flags, [], rfl, Or.inl ⟨Or.inl (fun _ h => by cases h), rfl⟩⟩
  | cons c s =>
    have hpeek : isQuiet (peek (c :: s)) = isQuiet c := rfl
    have hquiet : (isAlphaFoldEq (peek (c :: s)) 0x71 || isAlphaFoldEq (peek (c :: s)) 0x73) =
        isQuiet c := rfl
    rw [hpeek]
    by_cases hc : isQuiet c = true
    · rw [if_pos hc, List.tail_cons]
      by_cases hparen : peek s = 0x28
      · obtain ⟨u, rfl⟩ : ∃ u, s = 0x28 :: u := by
          cases s with
          | nil => cases hparen
          | cons d u => exact ⟨u, congrArg (· :: u) hparen⟩
        have hfirst : (isAlphaFoldEq (peek (0x28 :: u)) 0x71 ||
            isAlphaFoldEq (peek (0x28 :: u)) 0x73) = false := by
          have hparen : isQuiet 0x28 = false := by decide
          exact hparen
        have hskip : afterNan number flags (c :: 0x28 :: u) =
            afterNan number flags (0x28 :: u) := by
          unfold afterNan
          simp [hquiet, hfirst, hc]
        rw [hskip]
        rw [List.length_cons] at hlen
        exact afterNan_paren hn flags (by omega)
      · by_cases hnil : s = []
        · subst hnil
          refine ⟨flags, [], ?_, Or.inl ⟨Or.inl (fun _ h => by cases h), rfl⟩⟩
          unfold afterNan
          simp [hquiet, hc]
        · refine ⟨(okCheckSpace flags s).1, (okCheckSpace flags s).2, ?_,
            (okCheckSpace_judged flags s).congr (nanEnd_spaces hparen).symm⟩
          unfold afterNan
          simp [hquiet, hc, hparen, hnil]
    · rw [if_neg hc]
      by_cases hparen : c = 0x28
      · subst hparen
        exact afterNan_paren hn flags hlen
      · have hne : peek (c :: s) ≠ 0x28 := hparen
        refine ⟨(okCheckSpace flags (c :: s)).1, (okCheckSpace flags (c :: s)).2, ?_,
          (okCheckSpace_judged flags (c :: s)).congr (nanEnd_spaces hne).symm⟩
        unfold afterNan
        simp [hquiet, hc, hne]

def wordFlags (word : Word) : NumberFlags where
  infinity := word == .inf
  nan := word != .inf
  notInt := true

theorem grokInfnan_none {d : List UInt8} (h : infnanHead d = none) :
    grokInfnan number d = some ({}, d) := by
  unfold grokInfnan
  unfold infnanHead at h
  rw [h]
  split_ifs <;> rfl

theorem grokInfnan_word (hn : ReadsDecimals number len) {hash : Hash} {word : Word}
    {t rest : List UInt8} (ht : Spelling hash.odh word t)
    (hlen : (hash.text ++ (t ++ rest)).length ≤ len) :
    ∃ infnan v, grokInfnan number (hash.text ++ (t ++ rest)) = some (infnan, v) ∧
      Judged (wordFlags word) infnan (Ends hash.odh word rest) := by
  have hthree := ht.length
  obtain ⟨c, u, rfl, hc⟩ := ht.first
  obtain ⟨-, -, -, hplus, hminus, -⟩ := plain_of_startsInfnan hc
  have hsigns : peek (hash.text ++ (c :: u ++ rest)) ≠ 0x2B ∧
      peek (hash.text ++ (c :: u ++ rest)) ≠ 0x2D := by
    cases hash with
    | without => exact ⟨hplus, hminus⟩
    | short => exact ⟨by simp [Hash.text, peek], by simp [Hash.text, peek]⟩
    | long => exact ⟨by simp [Hash.text, peek], by simp [Hash.text, peek]⟩
  have hhead : infnanHead (hash.text ++ (c :: u ++ rest)) = some (false, hash.odh, word, rest) :=
    (infnanHead_eq_some hsigns.1 hsigns.2).2 ⟨rfl, hash, c :: u, rfl, ht, rfl⟩
  have hne : ¬(hash.text ++ (c :: u ++ rest)).isEmpty = true := by simp
  unfold infnanHead at hhead
  unfold grokInfnan
  rw [if_neg hne]
  dsimp only
  rw [hhead]
  cases word with
  | inf => exact ⟨_, _, rfl, afterInf_judged (wordFlags .inf) hash.odh rest⟩
  | ind =>
    refine ⟨_, _, rfl, ?_⟩
    exact (okCheckSpace_judged (wordFlags .ind) _).congr ends_ind.symm
  | nan =>
    refine afterNan_judged hn (wordFlags .nan) ?_
    simp only [List.length_append] at hlen ⊢
    omega

theorem grokInfnan_other {d : List UInt8} (hplus : peek d ≠ 0x2B) (hminus : peek d ≠ 0x2D)
    (h : ¬∃ (hash : Hash) (word : Word) (t rest : List UInt8), Spelling hash.odh word t ∧
      d = hash.text ++ (t ++ rest)) :
    grokInfnan number d = some ({}, d) := by
  refine grokInfnan_none ?_
  cases hhead : infnanHead d with
  | none => rfl
  | some r =>
    obtain ⟨neg, odh, word, rest⟩ := r
    obtain ⟨-, hash, t, rfl, ht, hd⟩ := (infnanHead_eq_some hplus hminus).1 hhead
    exact absurd ⟨hash, word, t, rest, ht, hd⟩ h

end NaNs

end XPerl.Numeric
