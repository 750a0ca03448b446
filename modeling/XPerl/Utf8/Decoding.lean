import XPerl.Utf8.Reports

/-! The encoder, the checkers and the decoder against each other, and a loop over a string. -/

namespace XPerl.Utf8

open XPerl.Framework.PlaceValue

variable {c x : U8} {us rest p s : List U8} {flags : U32} {uv : UV} {k n v : Nat}

theorem maxLegalCP_lt (h : v ≤ maxLegalCP) : v < 64 ^ 12 := by
  rw [maxLegalCP] at h
  omega

theorem encoding_begins (h : v ≤ maxLegalCP) (hbegins : encoding v <+: c :: rest) :
    encoding v = c :: following c rest ∧ ((c.toNat < 0x80 ∧ c.toNat = v) ∨
      (Accepted c (following c rest) ∧ value c (following c rest) = v)) := by
  by_cases hlow : v < 0x80
  · rw [encoding, if_pos hlow] at hbegins ⊢
    have hc : BitVec.ofNat 8 v = c := (List.cons_prefix_cons.1 hbegins).1
    have hcv : c.toNat = v := by
      rw [← hc, BitVec.toNat_ofNat]
      omega
    rw [following_of_lt (by omega), hc]
    exact ⟨rfl, .inl ⟨by omega, hcv⟩⟩
  · rw [Nat.not_lt] at hlow
    obtain ⟨c', cs, hencoding, hwhole, hvalue, hskip⟩ := exists_encoding hlow (maxLegalCP_lt h)
    rw [hencoding] at hbegins ⊢
    obtain ⟨hc, hcs⟩ := List.cons_prefix_cons.1 hbegins
    subst hc
    have hfollowing := hwhole.following_eq hcs
    have hleast : least (utf8Skip c') ≤ value c' cs := by
      rw [hskip, hvalue]
      exact least_width_le hlow
    rw [hfollowing]
    exact ⟨rfl, .inr ⟨⟨hwhole, hleast, hvalue.le.trans h⟩, hvalue⟩⟩

theorem encoding_ne_nil (v : Nat) : encoding v ≠ [] := by
  rw [encoding]
  split_ifs <;> exact List.cons_ne_nil _ _

theorem encoding_low (h : c.toNat < 0x80) : encoding c.toNat = [c] := by
  rw [encoding, if_pos h, BitVec.ofNat_toNat]
  rfl

theorem isUTF8CharFlags_begins (flags : U32) (p rest : List U8) :
    (p ≠ [] ∧ isUTF8CharFlags (p ++ rest) flags = p.length) ↔
      ∃ v ≤ maxLegalCP, encoding v = p ∧ ¬ utf8Disallowed flags v := by
  constructor
  · intro hand
    obtain ⟨hne, haccepts⟩ := hand
    obtain ⟨c, us, hp⟩ := List.exists_cons_of_ne_nil hne
    subst hp
    rw [List.cons_append, isUTF8CharFlags_cons, List.length_cons] at haccepts
    by_cases hlow : c.toNat < 0x80
    · rw [if_pos hlow] at haccepts
      have hus : us = [] := List.length_eq_zero_iff.1 (by omega)
      subst hus
      refine ⟨c.toNat, ?_, encoding_low hlow, utf8Disallowed_two (by omega)⟩
      rw [maxLegalCP]
      omega
    · rw [if_neg hlow] at haccepts
      split_ifs at haccepts with haccepted
      rw [show utf8Skip c - 1 = us.length by omega, List.take_left] at haccepted
      obtain ⟨hchar, hallowed⟩ := haccepted
      exact ⟨value c us, hchar.2.2, hchar.1.encoding_value hchar.2.1, hallowed⟩
  · intro hex
    obtain ⟨v, hle, hencoding, hallowed⟩ := hex
    have hne : p ≠ [] := hencoding ▸ encoding_ne_nil v
    obtain ⟨c, us, hp⟩ := List.exists_cons_of_ne_nil hne
    subst hp
    refine ⟨hne, ?_⟩
    have hbegins : encoding v <+: c :: (us ++ rest) := by
      rw [hencoding]
      exact List.prefix_append _ _
    obtain ⟨heq, hcases⟩ := encoding_begins hle hbegins
    rw [hencoding] at heq
    have hus : us = following c (us ++ rest) := List.tail_eq_of_cons_eq heq
    rw [List.cons_append, isUTF8CharFlags_cons, List.length_cons]
    rcases hcases with hc | hc
    · rw [if_pos hc.1, hus, following_of_lt (by omega)]
      rfl
    · obtain ⟨haccepted, hvalue⟩ := hc
      have htake : (us ++ rest).take (utf8Skip c - 1) = us := by
        have hlength := haccepted.1.length
        rw [← hus] at hlength
        rw [show utf8Skip c - 1 = us.length by omega, List.take_left]
      rw [← hus] at haccepted hvalue
      rw [if_neg (accepted_not_low haccepted), htake, hvalue, if_pos ⟨haccepted, hallowed⟩]
      exact haccepted.1.length.symm

theorem not_utf8Disallowed_zero (v : Nat) : ¬ utf8Disallowed 0 v := by
  simp [utf8Disallowed]

theorem isUTF8CharFlags_zero (s : List U8) : isUTF8CharFlags s 0 = isUTF8Char s := by
  cases s with
  | nil => rfl
  | cons c rest =>
    rw [isUTF8CharFlags_cons, isUTF8Char_cons]
    simp only [not_utf8Disallowed_zero, not_false_eq_true, and_true]

theorem encoder_eq (h : uv.toNat ≤ maxLegalCP) :
    uvoffuniToUtf8FlagsMsgs uv 0 = .ok (some (encoding uv.toNat)) := by
  rw [uvoffuni_eq, if_neg fun hand => absurd hand.1 (Nat.not_lt.2 h),
    if_neg (not_unicodeDisallowed_zero _)]

theorem width_gt_iff (v : Nat) : 6 < width v ↔ unicodeIsPerlExtended v := by
  rw [width, unicodeIsPerlExtended]
  split_ifs <;> omega

theorem Accepted.restricted_iff (h : Accepted c us) :
    Restricted flags c us ↔ utf8Disallowed flags (value c us) := by
  rw [Restricted, utf8Disallowed, h.1.surely_iff, h.1.surely_iff, h.1.surely_iff,
    ← width_gt_iff, h.1.width_value h.2.1]
  tauto

theorem Accepted.allowed_iff (h : Accepted c (following c rest)) :
    Allowed flags (c :: rest) ↔ ¬ utf8Disallowed flags (value c (following c rest)) := by
  rw [allowed_start h.1.first, AllowedStart, h.restricted_iff]
  exact and_iff_right h.tolerated

/-- Flags that let no malformation pass. -/
def Plain (flags : U32) : Prop := has flags defaultRejects = false

theorem Plain.has_bit (h : Plain flags) (hk : k < 32) (hset : defaultRejects.getLsbD k = true) :
    ¬ has flags (bit k) = true := by
  rw [Utf8.has_bit hk]
  intro hflag
  exact Bool.eq_false_iff.1 h ((has_iff _ _).2 ⟨k, hk, hflag, hset⟩)

theorem Plain.accepted (h : Plain flags) (hfirst : 0xC0 ≤ c.toNat)
    (htolerated : Tolerated flags c rest) : Accepted c (following c rest) := by
  obtain ⟨hshort, hnon, hover, hlong⟩ := htolerated
  have hbegun := begun_following hfirst rest
  have hmissing : ¬ 1 ≤ missing c (following c rest) := by
    rw [missing_following hfirst, not_or]
    exact ⟨mt hshort (h.has_bit (by decide) (by decide)),
      mt hnon (h.has_bit (by decide) (by decide))⟩
  have hwhole : Whole c (following c rest) := by
    have hlength := hbegun.length
    rw [missing] at hmissing
    exact ⟨hfirst, by omega, hbegun.continues⟩
  have hno : ¬ Overlong c (following c rest) := mt hlong (not_or.2
    ⟨h.has_bit (by decide) (by decide), h.has_bit (by decide) (by decide)⟩)
  have hfits : ¬ Overflows c (following c rest) := mt hover (h.has_bit (by decide) (by decide))
  refine ⟨hwhole, ?_, ?_⟩
  · rw [← Nat.not_lt, ← hwhole.width_lt_iff]
    exact fun hlt => hno
      ((hwhole.forall_append fun us' => width (value c us') < utf8Skip c).2 hlt)
  · rw [← Nat.not_lt]
    exact fun hlt => hfits ((hwhole.forall_append fun us' => maxLegalCP < value c us').2 hlt)

theorem Plain.allowed_iff (h : Plain flags) (s : List U8) :
    Allowed flags s ↔ 0 < isUTF8CharFlags s flags := by
  cases s with
  | nil => exact iff_of_false (h.has_bit (by decide) (by decide)) (Nat.lt_irrefl 0)
  | cons c rest =>
    rw [isUTF8CharFlags_cons]
    by_cases hlow : c.toNat < 0x80
    · rw [if_pos hlow]
      exact iff_of_true (.inl hlow) (by decide)
    · rw [if_neg hlow]
      by_cases haccepted : Accepted c (following c rest)
      · have hpos := two_le (utf8Skip_mem haccepted.1.first)
        rw [haccepted.allowed_iff, haccepted.take_eq]
        split_ifs with hand
        · exact iff_of_true hand.2 (by omega)
        · exact iff_of_false (fun hno => hand ⟨haccepted, hno⟩) (by decide)
      · rw [if_neg fun hand => haccepted (accepted_take_iff.1 hand.1)]
        refine iff_of_false (fun hallowed => ?_) (by decide)
        by_cases hcont : isContinuation c = true
        · exact h.has_bit (by decide) (by decide) ((allowed_continuation hcont).1 hallowed)
        · have hfirst : 0xC0 ≤ c.toNat := by
            rw [isContinuation_iff] at hcont
            omega
          exact haccepted (h.accepted hfirst ((allowed_start hfirst).1 hallowed).1)

theorem allowed_encoding_iff (h : v ≤ maxLegalCP) (hbegins : encoding v <+: c :: rest) :
    Allowed flags (c :: rest) ↔ ¬ utf8Disallowed flags v := by
  obtain ⟨-, hcases⟩ := encoding_begins h hbegins
  rcases hcases with hc | hc
  · exact iff_of_true (.inl hc.1) (utf8Disallowed_two (by omega))
  · rw [← hc.2]
    exact hc.1.allowed_iff

theorem decoder_encoding (flags : U32) (h : v ≤ maxLegalCP) (hbegins : encoding v <+: s) :
    (¬ utf8Disallowed flags v ∧ ∃ cp errors, cp.toNat = v ∧
        utf8ToUvMsgs s flags = .ok ⟨true, cp, (encoding v).length, errors⟩) ∨
      (utf8Disallowed flags v ∧ has flags utf8DieIfMalformed = false ∧ ∃ cp errors,
        utf8ToUvMsgs s flags = .ok ⟨false, cp, (encoding v).length, errors⟩) ∨
      (utf8Disallowed flags v ∧ has flags utf8DieIfMalformed = true ∧
        utf8ToUvMsgs s flags = .error .malformedCharacter) := by
  have hne : s ≠ [] := fun hnil => encoding_ne_nil v (List.prefix_nil.1 (hnil ▸ hbegins))
  obtain ⟨c, rest, hs⟩ := List.exists_cons_of_ne_nil hne
  subst hs
  obtain ⟨heq, hcases⟩ := encoding_begins h hbegins
  have hlength : (encoding v).length = 1 + (following c rest).length := by
    rw [heq, List.length_cons, Nat.add_comm]
  have hreported := utf8ToUvMsgs_reported flags c rest
  have hallowedIff : Allowed flags (c :: rest) ↔ ¬ utf8Disallowed flags v :=
    allowed_encoding_iff h hbegins
  rw [hlength]
  generalize utf8ToUvMsgs (c :: rest) flags = r at hreported
  cases hreported with
  | succeeds cp errors hallowed hlow hchar =>
    have hv : cp.toNat = v := by
      rcases hcases with hc | hc
      · exact (hlow hc.1).trans hc.2
      · exact (hchar hc.1).trans hc.2
    exact .inl ⟨hallowedIff.1 hallowed, cp, errors, hv, rfl⟩
  | fails cp errors hallowed hdie =>
    have hno := Classical.not_not.1 (mt hallowedIff.2 hallowed)
    exact .inr (.inl ⟨hno, hdie, cp, errors, rfl⟩)
  | dies hallowed hdie =>
    have hno := Classical.not_not.1 (mt hallowedIff.2 hallowed)
    exact .inr (.inr ⟨hno, hdie, rfl⟩)

/-- The encoder's bytes are what the checkers accept, and the decoder takes them back. -/
theorem codec_exact :
    (∀ uv : UV, uv.toNat ≤ maxLegalCP → ∃ bytes,
      uvoffuniToUtf8FlagsMsgs uv 0 = .ok (some bytes) ∧ ∀ rest,
        isUTF8Char (bytes ++ rest) = bytes.length ∧
        ∀ flags, ¬ utf8Disallowed flags uv.toNat → ∃ errors,
          utf8ToUvMsgs (bytes ++ rest) flags = .ok ⟨true, uv, bytes.length, errors⟩) ∧
    (∀ p rest : List U8, (p ≠ [] ∧ isUTF8Char (p ++ rest) = p.length) ↔
      ∃ uv : UV, uv.toNat ≤ maxLegalCP ∧ uvoffuniToUtf8FlagsMsgs uv 0 = .ok (some p)) ∧
    ∀ (flags : U32) (p rest : List U8),
      (p ≠ [] ∧ isUTF8CharFlags (p ++ rest) flags = p.length) ↔
        ∃ uv : UV, uv.toNat ≤ maxLegalCP ∧ uvoffuniToUtf8FlagsMsgs uv 0 = .ok (some p) ∧
          ¬ utf8Disallowed flags uv.toNat := by
  have hword (v : Nat) (hv : v ≤ maxLegalCP) : (BitVec.ofNat 64 v).toNat = v := by
    rw [maxLegalCP] at hv
    rw [BitVec.toNat_ofNat]
    omega
  have hflags (flags : U32) (p rest : List U8) :
      (p ≠ [] ∧ isUTF8CharFlags (p ++ rest) flags = p.length) ↔
        ∃ uv : UV, uv.toNat ≤ maxLegalCP ∧ uvoffuniToUtf8FlagsMsgs uv 0 = .ok (some p) ∧
          ¬ utf8Disallowed flags uv.toNat := by
    rw [isUTF8CharFlags_begins]
    constructor
    · intro hex
      obtain ⟨v, hv, hp, hno⟩ := hex
      refine ⟨BitVec.ofNat 64 v, (hword v hv).le.trans hv, ?_, ?_⟩
      · rw [encoder_eq ((hword v hv).le.trans hv), hword v hv, hp]
      · rw [hword v hv]
        exact hno
    · intro hex
      obtain ⟨uv, hv, hp, hno⟩ := hex
      rw [encoder_eq hv, Except.ok.injEq, Option.some.injEq] at hp
      exact ⟨uv.toNat, hv, hp, hno⟩
  have hplain (p rest : List U8) : (p ≠ [] ∧ isUTF8Char (p ++ rest) = p.length) ↔
      ∃ uv : UV, uv.toNat ≤ maxLegalCP ∧ uvoffuniToUtf8FlagsMsgs uv 0 = .ok (some p) := by
    rw [← isUTF8CharFlags_zero, hflags]
    simp only [not_utf8Disallowed_zero, not_false_eq_true, and_true]
  refine ⟨fun uv huv => ⟨encoding uv.toNat, encoder_eq huv, fun rest => ⟨?_, fun flags hno => ?_⟩⟩,
    hplain, hflags⟩
  · exact ((hplain _ rest).2 ⟨uv, huv, encoder_eq huv⟩).2
  · have hdecoded := decoder_encoding flags huv (List.prefix_append (encoding uv.toNat) rest)
    rcases hdecoded with hok | hbad | hbad
    · obtain ⟨-, cp, errors, hcp, heq⟩ := hok
      exact ⟨errors, heq.trans (by rw [BitVec.eq_of_toNat_eq hcp])⟩
    · exact absurd hbad.1 hno
    · exact absurd hbad.1 hno

/-- Why a loop over a string ends before the string does. -/
inductive Stop where
  | croaked (why : Croak)
  | outOfSteps
deriving DecidableEq

/-- A loop that decodes and advances, with the steps it may take: the pieces of the string, and
what is reported of each. -/
def decodeLoop (flags : U32) : Nat → List U8 → Except Stop (List (List U8 × Decoded))
  | _, [] => .ok []
  | 0, _ :: _ => .error .outOfSteps
  | n + 1, c :: rest =>
    match utf8ToUvMsgs (c :: rest) flags with
    | .error why => .error (.croaked why)
    | .ok d =>
      match decodeLoop flags n ((c :: rest).drop d.advance) with
      | .error stop => .error stop
      | .ok pieces => .ok (((c :: rest).take d.advance, d) :: pieces)

theorem utf8ToUvMsgs_progress (flags : U32) (c : U8) (rest : List U8) :
    (∃ d, utf8ToUvMsgs (c :: rest) flags = .ok d ∧ 1 ≤ d.advance ∧
        d.advance ≤ (c :: rest).length ∧
        (∀ x ∈ ((c :: rest).take d.advance).tail, isContinuation x) ∧
        (d.success ↔ Allowed flags (c :: rest)) ∧
        (d.success ∨ has flags utf8DieIfMalformed = false)) ∨
      (utf8ToUvMsgs (c :: rest) flags = .error .malformedCharacter ∧
        ¬ Allowed flags (c :: rest) ∧ has flags utf8DieIfMalformed = true) := by
  have hreported := utf8ToUvMsgs_reported flags c rest
  have hlength : 1 + (following c rest).length ≤ (c :: rest).length := by
    have hle := (following_append c rest).length_le
    rw [List.length_cons]
    omega
  have htail : ∀ x ∈ ((c :: rest).take (1 + (following c rest).length)).tail,
      isContinuation x := by
    rw [take_following]
    exact following_continues c rest
  generalize utf8ToUvMsgs (c :: rest) flags = r at hreported
  cases hreported with
  | succeeds cp errors hallowed hlow hchar =>
    exact .inl ⟨_, rfl, Nat.le_add_right _ _, hlength, htail, iff_of_true rfl hallowed, .inl rfl⟩
  | fails cp errors hallowed hdie =>
    exact .inl ⟨_, rfl, Nat.le_add_right _ _, hlength, htail,
      iff_of_false Bool.false_ne_true hallowed, .inr hdie⟩
  | dies hallowed hdie => exact .inr ⟨rfl, hallowed, hdie⟩

theorem decodeLoop_ends (flags : U32) (h : s.length ≤ n) :
    (∃ pieces, decodeLoop flags n s = .ok pieces ∧ (pieces.map Prod.fst).flatten = s ∧
        pieces.length ≤ s.length) ∨
      (decodeLoop flags n s = .error (.croaked .malformedCharacter) ∧
        has flags utf8DieIfMalformed = true ∧ ∃ left, left <:+ s ∧ ¬ Allowed flags left) := by
  induction n generalizing s with
  | zero =>
    rw [List.length_eq_zero_iff.1 (Nat.le_zero.1 h)]
    exact .inl ⟨[], rfl, rfl, Nat.le_refl _⟩
  | succ n ih =>
    cases s with
    | nil => exact .inl ⟨[], rfl, rfl, Nat.le_refl _⟩
    | cons c rest =>
      rw [decodeLoop]
      rcases utf8ToUvMsgs_progress flags c rest with hok | hdies
      · obtain ⟨d, hd, hpos, hle, -, -⟩ := hok
        have hdrop : ((c :: rest).drop d.advance).length ≤ n := by
          rw [List.length_drop]
          omega
        rw [hd]
        dsimp only
        rcases ih hdrop with hrest | hrest
        · obtain ⟨pieces, hpieces, hflatten, hcount⟩ := hrest
          rw [hpieces]
          refine .inl ⟨_, rfl, ?_, ?_⟩
          · rw [List.map_cons, List.flatten_cons, hflatten, List.take_append_drop]
          · rw [List.length_drop] at hcount
            rw [List.length_cons]
            omega
        · obtain ⟨hstop, hdie, left, hleft, hno⟩ := hrest
          rw [hstop]
          exact .inr ⟨rfl, hdie, left, hleft.trans (List.drop_suffix _ _), hno⟩
      · rw [hdies.1]
        exact .inr ⟨rfl, hdies.2.2, _, List.suffix_refl _, hdies.2.1⟩

theorem decodeLoop_encodings {vs : List Nat} (hlegal : ∀ v ∈ vs, v ≤ maxLegalCP)
    (hflags : has flags utf8DieIfMalformed = false ∨ ∀ v ∈ vs, ¬ utf8Disallowed flags v)
    (h : (vs.map encoding).flatten.length ≤ n) :
    ∃ pieces, decodeLoop flags n (vs.map encoding).flatten = .ok pieces ∧
      pieces.map Prod.fst = vs.map encoding ∧
      ((∀ v ∈ vs, ¬ utf8Disallowed flags v) →
        pieces.map (fun q => (q.2.success, q.2.cp.toNat)) = vs.map (true, ·)) := by
  induction vs generalizing n with
  | nil => exact ⟨[], by cases n <;> rfl, rfl, fun _ => rfl⟩
  | cons v vs ih =>
    obtain ⟨hv, hvs⟩ := List.forall_mem_cons.1 hlegal
    have hstep := decoder_encoding flags hv (List.prefix_append (encoding v) (vs.map encoding).flatten)
    obtain ⟨c, us, hcons⟩ := List.exists_cons_of_ne_nil (encoding_ne_nil v)
    rw [List.map_cons, List.flatten_cons, List.length_append] at h
    have hpos : 1 ≤ (encoding v).length := by
      rw [hcons, List.length_cons]
      omega
    obtain ⟨m, hm⟩ : ∃ m, n = m + 1 := ⟨n - 1, by omega⟩
    subst hm
    obtain ⟨pieces, hpieces, hfst, hsnd⟩ := ih hvs
      (hflags.imp_right fun hall => (List.forall_mem_cons.1 hall).2)
      (show (vs.map encoding).flatten.length ≤ m by omega)
    have hloop (d : Decoded) (hadvance : d.advance = (encoding v).length)
        (hd : utf8ToUvMsgs (encoding v ++ (vs.map encoding).flatten) flags = .ok d) :
        decodeLoop flags (m + 1) ((v :: vs).map encoding).flatten =
          .ok ((encoding v, d) :: pieces) := by
      have htake : (encoding v ++ (vs.map encoding).flatten).take d.advance = encoding v := by
        rw [hadvance, List.take_left]
      have hdrop : (encoding v ++ (vs.map encoding).flatten).drop d.advance =
          (vs.map encoding).flatten := by
        rw [hadvance, List.drop_left]
      rw [List.map_cons, List.flatten_cons]
      rw [hcons, List.cons_append] at hd htake hdrop ⊢
      rw [decodeLoop, hd]
      dsimp only
      rw [hdrop, hpieces, htake]
    rcases hstep with hok | hfail | hdie
    · obtain ⟨-, cp, errors, hcp, hd⟩ := hok
      refine ⟨_, hloop _ rfl hd, ?_, fun hall => ?_⟩
      · rw [List.map_cons, List.map_cons, hfst]
      · rw [List.map_cons, List.map_cons, hsnd (List.forall_mem_cons.1 hall).2, hcp]
    · obtain ⟨hno, -, cp, errors, hd⟩ := hfail
      refine ⟨_, hloop _ rfl hd, ?_, fun hall => ?_⟩
      · rw [List.map_cons, List.map_cons, hfst]
      · exact absurd hno (List.forall_mem_cons.1 hall).1
    · rcases hflags with hflags | hflags
      · exact absurd (hdie.2.1.symm.trans hflags) Bool.noConfusion
      · exact absurd hdie.1 (List.forall_mem_cons.1 hflags).1

/-- Decoding makes progress through any bytes; only the flag that asks for it ends the program. -/
theorem decoding_progresses (flags : U32) :
    (∀ c rest,
      (∃ d, utf8ToUvMsgs (c :: rest) flags = .ok d ∧ 1 ≤ d.advance ∧
        d.advance ≤ (c :: rest).length ∧
        (∀ x ∈ ((c :: rest).take d.advance).tail, isContinuation x) ∧
        (d.success ↔ Allowed flags (c :: rest)) ∧
        (d.success ∨ has flags utf8DieIfMalformed = false)) ∨
      (utf8ToUvMsgs (c :: rest) flags = .error .malformedCharacter ∧
        ¬ Allowed flags (c :: rest) ∧ has flags utf8DieIfMalformed = true)) ∧
    (Plain flags → ∀ s, Allowed flags s ↔ 0 < isUTF8CharFlags s flags) ∧
    (∀ s, (∃ pieces, decodeLoop flags s.length s = .ok pieces ∧
        (pieces.map Prod.fst).flatten = s ∧ pieces.length ≤ s.length) ∨
      (decodeLoop flags s.length s = .error (.croaked .malformedCharacter) ∧
        has flags utf8DieIfMalformed = true ∧ ∃ left, left <:+ s ∧ ¬ Allowed flags left)) ∧
    ∀ vs : List Nat, (∀ v ∈ vs, v ≤ maxLegalCP) →
      (has flags utf8DieIfMalformed = false ∨ ∀ v ∈ vs, ¬ utf8Disallowed flags v) →
      ∃ pieces, decodeLoop flags (vs.map encoding).flatten.length (vs.map encoding).flatten =
          .ok pieces ∧
        pieces.map Prod.fst = vs.map encoding ∧
        ((∀ v ∈ vs, ¬ utf8Disallowed flags v) →
          pieces.map (fun q => (q.2.success, q.2.cp.toNat)) = vs.map (true, ·)) :=
  ⟨utf8ToUvMsgs_progress flags, fun hplain => hplain.allowed_iff,
    fun _ => decodeLoop_ends flags (Nat.le_refl _),
    fun _ hlegal hflags => decodeLoop_encodings hlegal hflags (Nat.le_refl _)⟩

/-- A lone continuation byte with the flag that asks for it ends the program: no advance. -/
theorem decoding_may_croak :
    ¬ ∀ (flags : U32) (c : U8) (rest : List U8), ∃ d, utf8ToUvMsgs (c :: rest) flags = .ok d ∧
      1 ≤ d.advance := by
  intro hall
  obtain ⟨d, hd, -⟩ := hall utf8DieIfMalformed 0x80 []
  have hcroaks : utf8ToUvMsgs [0x80] utf8DieIfMalformed = .error .malformedCharacter := by
    decide +kernel
  rw [hcroaks] at hd
  cases hd

end XPerl.Utf8
