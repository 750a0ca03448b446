import XPerl.Utf8.Strict

/-! How the decoder ends, whatever the bytes and the flags. -/

namespace XPerl.Utf8

open XPerl.Framework.PlaceValue

variable {c x : U8} {us rest : List U8} {flags flags' problems : U32} {uv : UV} {k n v : Nat}
  {r : Except Croak Decoded}

theorem skip_of_lt (h : c.toNat < 0xC0) : utf8Skip c = 1 := by
  revert c
  decide

theorem following_of_lt (h : c.toNat < 0xC0) (rest : List U8) : following c rest = [] := by
  rw [following, skip_of_lt h]
  rfl

theorem following_append (c : U8) (rest : List U8) : following c rest <+: rest :=
  (List.takeWhile_prefix _).trans (List.take_prefix _ _)

theorem following_continues (c : U8) (rest : List U8) : Continuations (following c rest) :=
  fun x hx => List.all_eq_true.1 List.all_takeWhile x hx

theorem Whole.following_eq (h : Whole c us) (hbegins : us <+: rest) : following c rest = us := by
  have hlength := h.length
  rw [following, show utf8Skip c - 1 = us.length by omega, ← List.prefix_iff_eq_take.1 hbegins]
  exact List.takeWhile_eq_self_iff.2 h.continues

theorem Accepted.take_eq (h : Accepted c (following c rest)) :
    rest.take (utf8Skip c - 1) = following c rest := by
  have hlength := h.1.length
  have hbegins := List.prefix_iff_eq_take.1 (following_append c rest)
  rw [show utf8Skip c - 1 = (following c rest).length by omega, ← hbegins]

theorem accepted_take_iff :
    Accepted c (rest.take (utf8Skip c - 1)) ↔ Accepted c (following c rest) := by
  constructor
  · intro h
    rw [h.1.following_eq (List.take_prefix _ _)]
    exact h
  · intro h
    rw [h.take_eq]
    exact h

/-- The flags let the bytes at the start of a string pass as a character. -/
def Allowed (flags : U32) : List U8 → Prop
  | [] => has flags utf8AllowEmpty
  | c :: rest => c.toNat < 0x80 ∨ (isContinuation c ∧ has flags utf8GotContinuation) ∨
      (0xC0 ≤ c.toNat ∧ AllowedStart flags c rest)

/-- How the decoder may end for bytes that are not empty: only continuation bytes are taken with
the first one. -/
inductive Reported (flags : U32) (c : U8) (rest : List U8) : Except Croak Decoded → Prop
  | succeeds (cp : UV) (errors : U32) : Allowed flags (c :: rest) →
      (c.toNat < 0x80 → cp.toNat = c.toNat) →
      (Accepted c (following c rest) → cp.toNat = value c (following c rest)) →
      Reported flags c rest (.ok ⟨true, cp, 1 + (following c rest).length, errors⟩)
  | fails (cp : UV) (errors : U32) : ¬ Allowed flags (c :: rest) →
      has flags utf8DieIfMalformed = false →
      Reported flags c rest (.ok ⟨false, cp, 1 + (following c rest).length, errors⟩)
  | dies : ¬ Allowed flags (c :: rest) → has flags utf8DieIfMalformed = true →
      Reported flags c rest (.error .malformedCharacter)

theorem accepted_not_low (h : Accepted c us) : ¬ c.toNat < 0x80 := by
  have hfirst := h.1.first
  omega

theorem allowed_continuation (h : isContinuation c = true) :
    Allowed flags (c :: rest) ↔ has flags utf8GotContinuation := by
  have hrange := (isContinuation_iff c).1 h
  rw [Allowed, or_iff_right (by omega), or_iff_left (by omega)]
  exact and_iff_right h

theorem allowed_start (h : 0xC0 ≤ c.toNat) :
    Allowed flags (c :: rest) ↔ AllowedStart flags c rest := by
  have hcont : ¬ isContinuation c = true := fun hc => by
    have hrange := (isContinuation_iff c).1 hc
    omega
  rw [Allowed, or_iff_right (by omega), or_iff_right fun hand => hcont hand.1]
  exact and_iff_right h

theorem ready_reported
    (hdie : has flags' utf8DieIfMalformed = has flags utf8DieIfMalformed)
    (hrejects : has problems (flags' ^^^ defaultRejects) = true ↔ ¬ Allowed flags (c :: rest))
    (hlow : 0x80 ≤ c.toNat)
    (hcp : Accepted c (following c rest) → uv.toNat = value c (following c rest) ∧
      (Allowed flags (c :: rest) → has problems (utf8AllowAny ||| utf8AllowEmpty |||
        (flags' &&& utf8DisallowIllegalInterchange)) = false)) :
    Reported flags c rest
      (readyToHandleErrors flags' problems uv (1 + (following c rest).length)) := by
  rw [readyToHandleErrors_eq]
  by_cases hrejected : has problems (flags' ^^^ defaultRejects) = true
  · have hno := hrejects.1 hrejected
    rw [if_pos hrejected]
    by_cases hdies : has flags utf8DieIfMalformed = true
    · rw [if_pos (hdie.trans hdies)]
      exact .dies hno hdies
    · rw [if_neg fun hset => hdies (hdie.symm.trans hset)]
      exact .fails _ _ hno (Bool.eq_false_iff.2 hdies)
  · have hallowed := Classical.not_not.1 (mt hrejects.2 hrejected)
    rw [if_neg hrejected]
    refine .succeeds _ _ hallowed (fun h => by omega) fun haccepted => ?_
    obtain ⟨hvalue, hreplaced⟩ := hcp haccepted
    rw [hreplaced hallowed, if_neg Bool.false_ne_true]
    exact hvalue

theorem follows_replaces (flags : U32) :
    Follows (utf8AllowAny ||| utf8AllowEmpty ||| (flags &&& utf8DisallowIllegalInterchange))
      flags := by
  have hclass (p : Nat) (hp : p < 32)
      (hnone : (utf8AllowAny ||| utf8AllowEmpty).getLsbD p = false)
      (hset : utf8DisallowIllegalInterchange.getLsbD p = true) :
      has (bit p)
        (utf8AllowAny ||| utf8AllowEmpty ||| (flags &&& utf8DisallowIllegalInterchange)) =
          has flags (bit p) := by
    rw [bit_has hp, BitVec.getLsbD_or, BitVec.getLsbD_and, hnone, hset, Bool.false_or,
      Bool.and_true, has_bit hp]
  exact ⟨hclass 5 (by decide) (by decide) (by decide), hclass 7 (by decide) (by decide) (by decide),
    hclass 9 (by decide) (by decide) (by decide), hclass 11 (by decide) (by decide) (by decide)⟩

theorem Ends.reported (h : Ends flags c rest flags' problems uv) (hfirst : 0xC0 ≤ c.toNat) :
    Reported flags c rest (utf8ToUvMsgsHelper (c :: rest) flags) := by
  rw [h.helper]
  have hdie : has flags' utf8DieIfMalformed = has flags utf8DieIfMalformed := by
    rw [utf8DieIfMalformed, has_bit (by decide), has_bit (by decide),
      h.kept 16 (by decide) (by decide)]
  refine ready_reported hdie ?_ (by omega) fun haccepted => ?_
  · rw [h.rejects, allowed_start hfirst]
  · obtain ⟨hvalue, hproblems⟩ := h.accepted haccepted
    refine ⟨hvalue, fun hallowed => ?_⟩
    have hfollows := (follows_replaces flags').of_flags fun p hp hne => (h.kept p hp hne).symm
    rw [Bool.eq_false_iff, Ne, hproblems _ hfollows]
    exact ((allowed_start hfirst).1 hallowed).2

theorem continuation_reported (h : isContinuation c = true) :
    Reported flags c rest (utf8ToUvMsgsHelper (c :: rest) flags) := by
  have hrange := (isContinuation_iff c).1 h
  have hfollowing := following_of_lt (show c.toNat < 0xC0 by omega) rest
  have hhangul : isHangulEDUtf8Safe (c :: rest) = false := by
    have hne : c ≠ 0xED := fun heq => by
      subst heq
      exact absurd hrange.2 (by decide)
    rw [isHangulEDUtf8Safe, decide_eq_false_iff_not]
    exact fun hall => hne hall.2.1
  have hready : utf8ToUvMsgsHelper (c :: rest) flags =
      readyToHandleErrors flags utf8GotContinuation 0 (1 + (following c rest).length) := by
    rw [utf8ToUvMsgsHelper, hhangul, if_neg Bool.false_ne_true, hfollowing]
    exact if_pos h
  rw [hready]
  refine ready_reported rfl ?_ hrange.1 fun haccepted => ?_
  · rw [allowed_continuation h, utf8GotContinuation, bit_rejects (by decide),
      show defaultRejects.getLsbD 2 = true by decide, Bool.xor_true, has_bit (by decide)]
    simp
  · have hfirst := haccepted.1.first
    omega

theorem Accepted.tolerated (h : Accepted c (following c rest)) : Tolerated flags c rest := by
  have hlength := h.1.length
  have hmissing : ¬ 1 ≤ missing c (following c rest) := by
    rw [missing]
    omega
  have hwhole := mt (missing_following h.1.first rest).2 hmissing
  rw [not_or] at hwhole
  exact ⟨fun hshort => absurd hshort hwhole.1, fun hshort => absurd hshort hwhole.2,
    fun hover => absurd hover h.not_overflows, fun hlong => absurd hlong h.not_overlong⟩

theorem allowed_of_fine (h : Accepted c (following c rest)) (hskip : utf8Skip c ≤ 6)
    (hfine : Fine (value c (following c rest))) : Allowed flags (c :: rest) := by
  rw [allowed_start h.1.first, AllowedStart]
  refine ⟨h.tolerated, ?_⟩
  rw [Restricted, h.1.surely_iff, h.1.surely_iff, h.1.surely_iff]
  obtain ⟨hsurrogate, hsuper, hnonchar⟩ := hfine
  simp only [hsurrogate, hsuper, hnonchar, Nat.not_lt.2 hskip, and_false, or_self,
    not_false_eq_true]

theorem toNat_hangul (c x y : U8) :
    (((c &&& utfStartMask 3).setWidth 64 <<< 12) ||| ((x &&& 0x3F).setWidth 64 <<< 6) |||
        (y &&& 0x3F).setWidth 64 : UV).toNat =
      ((c &&& utfStartMask 3).toNat * 64 + sixBits x) * 64 + sixBits y := by
  have hmask : (c &&& utfStartMask 3).toNat < 256 := BitVec.isLt _
  have hfirst : ((c &&& utfStartMask 3).setWidth 64).toNat = (c &&& utfStartMask 3).toNat := by
    rw [BitVec.toNat_setWidth]
    omega
  have hstep : (((c &&& utfStartMask 3).setWidth 64 <<< 12) |||
      ((x &&& 0x3F).setWidth 64 <<< 6) ||| (y &&& 0x3F).setWidth 64 : UV) =
        utf8Accumulate (utf8Accumulate ((c &&& utfStartMask 3).setWidth 64) x) y := by
    rw [utf8Accumulate, utf8Accumulate, BitVec.shiftLeft_or_distrib, ← BitVec.shiftLeft_add]
  have hltx := sixBits_lt x
  have hlty := sixBits_lt y
  rw [hstep, toNat_accumulate, toNat_accumulate, hfirst]
  omega

theorem hangul_reported (h : isHangulEDUtf8Safe (c :: rest) = true) :
    Reported flags c rest (utf8ToUvMsgsHelper (c :: rest) flags) := by
  rw [isHangulEDUtf8Safe, decide_eq_true_eq] at h
  obtain ⟨hlen, hc, hx, hx', hy, hy'⟩ := h
  change c = 0xED at hc
  subst hc
  obtain ⟨x, y, rest', hrest⟩ : ∃ x y rest', rest = x :: y :: rest' := by
    rcases rest with _ | ⟨x, _ | ⟨y, rest'⟩⟩
    · exact absurd hlen (by decide)
    · exact absurd hlen (by simp)
    · exact ⟨x, y, rest', rfl⟩
  subst hrest
  change 0x80 ≤ x.toNat at hx
  change x.toNat ≤ 0x9F at hx'
  change 0x80 ≤ y.toNat at hy
  change y.toNat ≤ 0xBF at hy'
  have hcx : isContinuation x = true := (isContinuation_iff x).2 (by omega)
  have hcy : isContinuation y = true := (isContinuation_iff y).2 (by omega)
  have hwhole : Whole 0xED [x, y] := by
    refine ⟨by decide, rfl, fun z hz => ?_⟩
    simp only [List.mem_cons, List.not_mem_nil, or_false] at hz
    rcases hz with hz | hz <;> rw [hz] <;> assumption
  have hfollowing : following 0xED (x :: y :: rest') = [x, y] :=
    hwhole.following_eq (List.prefix_append [x, y] rest')
  have hvalue : value 0xED [x, y] = (13 * 64 + sixBits x) * 64 + sixBits y := rfl
  have hsx := toNat_of_continuation hcx
  have hltx := sixBits_lt x
  have hlty := sixBits_lt y
  have hfine : Fine (value 0xED [x, y]) := (fine_iff _).2 (by omega)
  have haccepted : Accepted 0xED [x, y] := by
    have hleast : least (utf8Skip 0xED) = 0x800 := by decide
    refine ⟨hwhole, ?_, ?_⟩
    · rw [hleast]
      omega
    · rw [maxLegalCP]
      omega
  have hhelper : utf8ToUvMsgsHelper (0xED :: x :: y :: rest') flags =
      .ok ⟨true, ((0xED &&& utfStartMask 3).setWidth 64 <<< 12) |||
        ((x &&& 0x3F).setWidth 64 <<< 6) ||| (y &&& 0x3F).setWidth 64, 3, 0⟩ := by
    rw [utf8ToUvMsgsHelper, if_pos]
    · rfl
    · rw [isHangulEDUtf8Safe, decide_eq_true_eq]
      exact ⟨hlen, rfl, hx, hx', hy, hy'⟩
  rw [← hfollowing] at hfine haccepted
  have hallowed : Allowed flags (0xED :: x :: y :: rest') :=
    allowed_of_fine haccepted (by decide) hfine
  have hreported := Reported.succeeds (((0xED &&& utfStartMask 3).setWidth 64 <<< 12) |||
    ((x &&& 0x3F).setWidth 64 <<< 6) ||| (y &&& 0x3F).setWidth 64) 0 hallowed
    (fun hlow => absurd hlow (by decide)) fun _ => by rw [toNat_hangul, hfollowing, hvalue]; rfl
  rw [hfollowing] at hreported
  rw [hhelper]
  exact hreported

theorem strictState_ne {uv : UV} (hdone : (strictLoop (strictState c) uv 1 rest).1 = 0) :
    strictState c ≠ 1 := by
  intro hone
  rw [hone] at hdone
  cases rest with
  | nil => exact Nat.one_ne_zero hdone
  | cons x rest => exact Nat.one_ne_zero hdone

theorem strict_reported (hlow : 0x80 ≤ c.toNat) {uv : UV} (huv : uv.toNat = lead c)
    (hdone : (strictLoop (strictState c) uv 1 rest).1 = 0) :
    Reported flags c rest (.ok ⟨true, (strictLoop (strictState c) uv 1 rest).2.1,
      (strictLoop (strictState c) uv 1 rest).2.2, 0⟩) := by
  obtain ⟨hfirst, hnode, -⟩ := strict_first hlow (strictState_ne hdone)
  obtain ⟨k, hk, hpending⟩ := hnode
  rw [hk] at hdone ⊢
  obtain ⟨us, hus, hlen, hconts, hfine, hleast, hvalue, hread⟩ :=
    hpending.strictLoop_accepts huv hdone
  have hrange := hpending.range
  have hwhole : Whole c us := ⟨hfirst, by omega, hconts⟩
  have hfollowing : following c rest = us :=
    hwhole.following_eq (hus ▸ List.take_prefix _ _)
  have hmax := hfine.2.1
  rw [unicodeIsSuper] at hmax
  have haccepted : Accepted c us := by
    refine ⟨hwhole, hleast, ?_⟩
    change ¬ 0x10FFFF < value c us at hmax
    rw [maxLegalCP]
    omega
  rw [hread, show 1 + (utf8Skip c - 1) = 1 + us.length by omega, ← hfollowing]
  rw [← hfollowing] at haccepted hvalue hfine
  have hskip : utf8Skip c ≤ 6 := by omega
  exact .succeeds _ _ (allowed_of_fine haccepted hskip hfine)
    (fun h => absurd h (Nat.not_lt.2 hlow)) fun _ => hvalue

theorem utf8ToUvMsgs_reported (flags : U32) (c : U8) (rest : List U8) :
    Reported flags c rest (utf8ToUvMsgs (c :: rest) flags) := by
  have hinvariant : isInvariant c = true ↔ c.toNat < 0x80 := by
    revert c
    decide
  rw [utf8ToUvMsgs]
  by_cases hlow : c.toNat < 0x80
  · have hfollowing := following_of_lt (show c.toNat < 0xC0 by omega) rest
    have hreported : Reported flags c rest
        (.ok ⟨true, c.setWidth 64, 1 + (following c rest).length, 0⟩) :=
      .succeeds _ _ (.inl hlow)
        (fun _ => by rw [BitVec.toNat_setWidth]; omega)
        fun haccepted => absurd hlow (accepted_not_low haccepted)
    rw [hfollowing] at hreported
    rw [if_pos (hinvariant.2 hlow)]
    exact hreported
  · rw [Nat.not_lt] at hlow
    rw [if_neg fun h => absurd (hinvariant.1 h) (Nat.not_lt.2 hlow)]
    dsimp only
    change Reported flags c rest (if (strictLoop (strictState c) _ 1 rest).1 = 0 then _ else _)
    split_ifs with hdone
    · have hlead := (strict_first hlow (strictState_ne hdone)).2.2
      refine strict_reported hlow ?_ hdone
      rw [BitVec.toNat_setWidth, hlead]
      have hlt : lead c < 256 := BitVec.isLt _
      omega
    · by_cases hcont : isContinuation c = true
      · exact continuation_reported hcont
      · have hfirst : 0xC0 ≤ c.toNat := by
          rw [isContinuation_iff] at hcont
          omega
        by_cases hhangul : isHangulEDUtf8Safe (c :: rest) = true
        · exact hangul_reported hhangul
        · have hslow : ∃ flags' problems uv, Ends flags c rest flags' problems uv :=
            helper_ends hfirst (Bool.eq_false_iff.2 hhangul)
          obtain ⟨flags', problems, uv, hends⟩ := hslow
          exact hends.reported hfirst

end XPerl.Utf8
