import XPerl.Utf8.Checker

/-! One code point out of UTF-8, with all that may be wrong with its bytes. -/

namespace XPerl.Utf8

def utf8GotOverflow : U32 := bit 0

def utf8GotEmpty : U32 := bit 1

def utf8GotContinuation : U32 := bit 2

def utf8GotShort : U32 := bit 3

def utf8GotNonContinuation : U32 := bit 4

def utf8GotSurrogate : U32 := utf8DisallowSurrogate

def utf8GotPerlExtended : U32 := utf8DisallowPerlExtended

def utf8GotSuper : U32 := utf8DisallowSuper

def utf8GotNonchar : U32 := utf8DisallowNonchar

def utf8GotLong : U32 := bit 13

def utf8GotLongWithValue : U32 := bit 14

def utf8CheckOnly : U32 := bit 15

def utf8DieIfMalformed : U32 := bit 16

def utf8GotTooShort : U32 := utf8GotShort ||| utf8GotNonContinuation

def utf8AllowLong : U32 := utf8GotLong

def utf8AllowLongAndItsValue : U32 := utf8GotLongWithValue

def utf8AllowEmpty : U32 := utf8GotEmpty

def utf8AllowAny : U32 :=
  utf8GotContinuation ||| utf8GotNonContinuation ||| utf8GotShort ||| utf8GotLong |||
    utf8GotOverflow

def utf8DisallowIllegalInterchange : U32 :=
  utf8DisallowSuper ||| utf8DisallowPerlExtended ||| utf8DisallowSurrogate ||| utf8DisallowNonchar

def utf8WarnIllegalInterchange : U32 :=
  utf8WarnSuper ||| utf8WarnPerlExtended ||| utf8WarnSurrogate ||| utf8WarnNonchar

def defaultRejects : U32 := utf8AllowAny ||| utf8AllowEmpty ||| utf8AllowLongAndItsValue

def unicodeReplacement : UV := 0xFFFD

def strictNode (k : Nat) : Nat := k * 19

/-- The classes of bytes of `PL_strict_utf8_dfa_tab`. -/
def strictClasses : List Nat :=
  List.replicate 128 0 ++
  List.replicate 15 9 ++ [10] ++
  List.replicate 15 11 ++ [12] ++
  List.replicate 15 13 ++ [14] ++
  [15, 15, 15, 15, 15, 15, 15, 16, 15, 15, 15, 15, 15, 15, 17, 18] ++
  [1, 1] ++ List.replicate 30 2 ++
  [7, 3, 3, 3, 3, 3, 3, 3, 3, 3, 3, 3, 3, 1, 3, 4] ++
  [8, 6, 6, 6, 5, 1, 1, 1, 1, 1, 1, 1, 1, 1, 1, 1]

def strictNodes : List Nat :=
  let n := strictNode
  [0, 1, n 1, n 2, n 4, n 7, n 6, n 3, n 5, 1, 1, 1, 1, 1, 1, 1, 1, 1, 1] ++
  [1, 1, 1, 1, 1, 1, 1, 1, 1, 0, 0, 0, 0, 0, 0, 0, 0, 0, 0] ++
  [1, 1, 1, 1, 1, 1, 1, 1, 1, n 1, n 1, n 1, n 1, n 1, n 1, n 1, n 1, n 1, n 1] ++
  [1, 1, 1, 1, 1, 1, 1, 1, 1, 1, 1, 1, 1, n 1, n 1, n 1, n 1, n 1, n 1] ++
  [1, 1, 1, 1, 1, 1, 1, 1, 1, n 1, n 1, n 1, n 1, n 1, n 1, n 1, n 8, n 1, n 9] ++
  [1, 1, 1, 1, 1, 1, 1, 1, 1, 1, 1, n 2, n 10, n 2, n 10, n 2, n 2, n 2, n 10] ++
  [1, 1, 1, 1, 1, 1, 1, 1, 1, n 2, n 10, n 2, n 10, n 2, n 10, n 2, n 2, n 2, n 10] ++
  [1, 1, 1, 1, 1, 1, 1, 1, 1, n 2, n 10, 1, 1, 1, 1, 1, 1, 1, 1] ++
  [1, 1, 1, 1, 1, 1, 1, 1, 1, 0, 0, 1, 1, 1, 1, 0, 0, 0, 0] ++
  [1, 1, 1, 1, 1, 1, 1, 1, 1, 0, 0, 0, 0, 0, 0, 0, 0, 1, 1] ++
  [1, 1, 1, 1, 1, 1, 1, 1, 1, n 1, n 1, n 1, n 1, n 1, n 1, n 1, n 1, n 1, n 11] ++
  [1, 1, 1, 1, 1, 1, 1, 1, 1, 0, 0, 0, 0, 0, 0, 0, 0, 1, 1]

def strictUtf8DfaTab : List Nat := strictClasses ++ strictNodes

/-- What the decoder reports: whether it succeeds, the code point, how far to advance and the
problems it has found. -/
structure Decoded where
  success : Bool
  cp : UV
  advance : Nat
  errors : U32
deriving DecidableEq

def lsbitPos32 (word : U32) : Nat := ((List.range 32).find? fun i => word.getLsbD i).getD 32

def handleProblems (rejects replaces : U32) :
    Nat → U32 → UV → Bool → U32 → UV × Bool × U32
  | 0, _, uv, disallowed, errors => (uv, disallowed, errors)
  | n + 1, possibleProblems, uv, disallowed, errors =>
    if possibleProblems ≠ 0 then
      let thisProblem := bit (lsbitPos32 possibleProblems)
      handleProblems rejects replaces n (possibleProblems &&& ~~~thisProblem)
        (if has thisProblem replaces then unicodeReplacement else uv)
        (if has thisProblem rejects then true else disallowed)
        (errors ||| thisProblem)
    else (uv, disallowed, errors)

/-- `utf8_to_uv_msgs_helper_` from `ready_to_handle_errors` on. -/
def readyToHandleErrors (flags possibleProblems : U32) (uv : UV) (curlen : Nat) :
    Except Croak Decoded :=
  if possibleProblems ≠ 0 then
    let rejects := flags ^^^ defaultRejects
    let replaces := utf8AllowAny ||| utf8AllowEmpty ||| (flags &&& utf8DisallowIllegalInterchange)
    let (uv, disallowed, errors) := handleProblems rejects replaces 32 possibleProblems uv false 0
    if disallowed then
      if has (flags &&& ~~~utf8CheckOnly) utf8DieIfMalformed then .error .malformedCharacter
      else .ok ⟨false, uv, curlen, errors⟩
    else .ok ⟨true, uv, curlen, errors⟩
  else .ok ⟨true, uv, curlen, 0⟩

def isHangulEDUtf8Safe (s : List U8) : Bool :=
  3 ≤ s.length ∧ byteAt s 0 = 0xED ∧ 0x80 ≤ (byteAt s 1).toNat ∧ (byteAt s 1).toNat ≤ 0x9F ∧
    0x80 ≤ (byteAt s 2).toNat ∧ (byteAt s 2).toNat ≤ 0xBF

/-- The loop through the bytes of the character: the code point so far, the bytes read, and whether
a byte that is no continuation has ended it. -/
def accumulateLoop (uv : UV) (curlen : Nat) : List U8 → UV × Nat × Bool
  | [] => (uv, curlen, false)
  | c :: rest =>
    if isContinuation c then accumulateLoop (utf8Accumulate uv c) (curlen + 1) rest
    else (uv, curlen, true)

/-- Whether `does_utf8_overflow` gives at least `ALMOST_CERTAINLY_OVERFLOWS`. -/
def Overflow.almostCertainly : Overflow → Bool
  | .noOverflow | .couldOverflow => false
  | .almostCertainlyOverflows | .overflows => true

def fillLoop (uv : UV) : Nat → UV
  | 0 => uv
  | n + 1 => fillLoop (utf8Accumulate uv 0x80) n

def fillOut (uv : UV) (c : U8) (curlen expectlen : Nat) : UV :=
  if curlen = 1 ∧ (c = 0xF0 ∨ c = 0xF8 ∨ c = 0xFC ∨ c = 0xFE) then
    fillLoop (utf8Accumulate uv (BitVec.ofNat 8 (0x100 + 0x10 + 0x80 - c.toNat))) (expectlen - 2)
  else fillLoop uv (expectlen - curlen)

def classify (flags : U32) (uv : UV) : U32 :=
  if unicodeIsSurrogate uv.toNat then
    if has flags (utf8DisallowSurrogate ||| utf8WarnSurrogate) then utf8GotSurrogate else 0
  else if unicodeIsSuper uv.toNat then
    if has flags (utf8DisallowSuper ||| utf8WarnSuper) then utf8GotSuper else 0
  else if unicodeIsNoncharGivenNotSuper uv.toNat then
    if has flags (utf8DisallowNonchar ||| utf8WarnNonchar) then utf8GotNonchar else 0
  else 0

def problematic (flags possibleProblems : U32) (uv : UV) (c : U8) (curlen expectlen : Nat)
    (overlongDetectLength : Int) : U32 × UV :=
  let extended := 6 < utf8Skip c
  let possibleProblems :=
    if extended ∧ has flags (utf8DisallowPerlExtended ||| utf8WarnPerlExtended) then
      possibleProblems ||| utf8GotPerlExtended
    else possibleProblems
  if extended ∧ (has possibleProblems utf8GotOverflow ∨ overlongDetectLength ≤ 0) then
    if has flags (utf8DisallowSuper ||| utf8WarnSuper) then (possibleProblems ||| utf8GotSuper, uv)
    else (possibleProblems, uv)
  else
    let uv :=
      if has possibleProblems utf8GotTooShort ∧
          has flags (~~~(utf8DisallowNonchar ||| utf8WarnNonchar)) then
        fillOut uv c curlen expectlen
      else uv
    (possibleProblems ||| classify flags uv, uv)

/-- What the helper knows of a sequence before it looks at the code point. -/
structure Examined where
  flags : U32
  possibleProblems : U32
  uv : UV
  curlen : Nat
  overlongDetectLength : Int

/-- `utf8_to_uv_msgs_helper_` from the first byte to the check for overlong sequences. -/
def examine (flags : U32) (c : U8) (rest : List U8) : Examined :=
  let expectlen := utf8Skip c
  let uv : UV := (c &&& utfStartMask expectlen).setWidth 64
  let possibleProblems := if (c :: rest).length < expectlen then utf8GotShort else 0
  let (uv, curlen, interrupted) := accumulateLoop uv 1 (rest.take (expectlen - 1))
  let possibleProblems :=
    if interrupted then possibleProblems ||| utf8GotNonContinuation else possibleProblems
  let seen := (c :: rest).take curlen
  let overflows := (doesUtf8Overflow seen).almostCertainly
  let possibleProblems :=
    if overflows then possibleProblems ||| utf8GotOverflow else possibleProblems
  let uv : UV := if overflows then BitVec.allOnes 64 else uv
  let overlongDetectLength : Int := if 0xC0 ≤ c.toNat then isUtf8Overlong seen else 0
  let withValue := has flags utf8AllowLongAndItsValue
  { flags := if 0 < overlongDetectLength ∧ withValue then flags ||| utf8AllowLong else flags
    possibleProblems :=
      if 0 < overlongDetectLength then
        possibleProblems ||| (if withValue then utf8GotLongWithValue else utf8GotLong)
      else possibleProblems
    uv := uv
    curlen := curlen
    overlongDetectLength := overlongDetectLength }

def utf8ToUvMsgsHelper (s : List U8) (flags : U32) : Except Croak Decoded :=
  if isHangulEDUtf8Safe s then
    .ok ⟨true, ((0xED &&& utfStartMask 3).setWidth 64 <<< 12) |||
      ((byteAt s 1 &&& 0x3F).setWidth 64 <<< 6) ||| (byteAt s 2 &&& 0x3F).setWidth 64, 3, 0⟩
  else
    match s with
    | [] => readyToHandleErrors flags utf8GotEmpty 0 0
    | c :: rest =>
      if isContinuation c then readyToHandleErrors flags utf8GotContinuation 0 1
      else
        let x := examine flags c rest
        if 0xED ≤ c.toNat ∧
            has x.flags (utf8DisallowIllegalInterchange ||| utf8WarnIllegalInterchange) then
          let (possibleProblems, uv) :=
            problematic x.flags x.possibleProblems x.uv c x.curlen (utf8Skip c)
              x.overlongDetectLength
          readyToHandleErrors x.flags possibleProblems uv x.curlen
        else readyToHandleErrors x.flags x.possibleProblems x.uv x.curlen

def strictLoop (state : Nat) (uv : UV) (read : Nat) : List U8 → Nat × UV × Nat
  | [] => (state, uv, read)
  | c :: rest =>
    if 1 < state then
      strictLoop (dfaNext strictUtf8DfaTab state c) (utf8Accumulate uv c) (read + 1) rest
    else (state, uv, read)

def utf8ToUvMsgs (s : List U8) (flags : U32) : Except Croak Decoded :=
  match s with
  | [] => utf8ToUvMsgsHelper [] flags
  | c :: rest =>
    if isInvariant c then .ok ⟨true, c.setWidth 64, 1, 0⟩
    else
      let type := strictUtf8DfaTab.getD c.toNat 0
      let state := strictUtf8DfaTab.getD (256 + type) 0
      let uv : UV := ((0xFF : U8) >>> type &&& c).setWidth 64
      let (state, uv, read) := strictLoop state uv 1 rest
      if state = 0 then .ok ⟨true, uv, read, 0⟩
      else utf8ToUvMsgsHelper (c :: rest) flags

/-! Sets of flags, and the loop that handles each problem found. -/

variable {flags problems rejects replaces errors : U32} {uv : UV} {n p : Nat} {disallowed : Bool}

theorem getLsbD_bit (hp : p < 32) (i : Nat) : (bit p).getLsbD i = decide (i = p) := by
  rw [bit]
  simp only [BitVec.getLsbD_shiftLeft, BitVec.ofNat_eq_ofNat]
  by_cases hi : i = p
  · subst hi
    simp [hp]
  · by_cases hlt : i < p
    · simp [hi, hlt]
    · have hne : i - p ≠ 0 := by omega
      simp [hi, hlt, hne, BitVec.getLsbD_one]

theorem has_iff (a b : U32) : has a b = true ↔ ∃ i, i < 32 ∧ a.getLsbD i ∧ b.getLsbD i := by
  rw [has, decide_eq_true_eq]
  constructor
  · intro hne
    by_contra hnone
    apply hne
    apply BitVec.eq_of_getLsbD_eq
    intro i hi
    rw [BitVec.getLsbD_and]
    by_contra hset
    exact hnone ⟨i, hi, by simpa using hset⟩
  · intro hex heq
    obtain ⟨i, -, ha, hb⟩ := hex
    have hbit := congrArg (BitVec.getLsbD · i) heq
    simp [ha, hb] at hbit

theorem has_comm (a b : U32) : has a b = has b a := by
  rw [has, has, BitVec.and_comm]

theorem or_has (a b mask : U32) : has (a ||| b) mask = (has a mask || has b mask) := by
  rw [has_comm, has_or, has_comm mask, has_comm mask]

theorem has_bit (hp : p < 32) (flags : U32) : has flags (bit p) = flags.getLsbD p := by
  rw [Bool.eq_iff_iff, has_iff]
  constructor
  · intro hex
    obtain ⟨i, -, hflag, hbit⟩ := hex
    rw [getLsbD_bit hp, decide_eq_true_eq] at hbit
    rw [← hbit]
    exact hflag
  · intro hflag
    exact ⟨p, hp, hflag, by rw [getLsbD_bit hp, decide_eq_true rfl]⟩

theorem bit_has (hp : p < 32) (mask : U32) : has (bit p) mask = mask.getLsbD p := by
  rw [has_comm, has_bit hp]

theorem lsbitPos32_spec (h : problems ≠ 0) :
    lsbitPos32 problems < 32 ∧ problems.getLsbD (lsbitPos32 problems) = true ∧
      ∀ i < lsbitPos32 problems, problems.getLsbD i = false := by
  have hex : ∃ i < 32, problems.getLsbD i = true := by
    by_contra hnone
    apply h
    apply BitVec.eq_of_getLsbD_eq
    intro i hi
    by_contra hset
    exact hnone ⟨i, hi, by simpa using hset⟩
  rw [lsbitPos32]
  cases hfind : (List.range 32).find? fun i => problems.getLsbD i with
  | none =>
    rw [List.find?_eq_none] at hfind
    obtain ⟨i, hi, hset⟩ := hex
    exact absurd hset (hfind i (List.mem_range.2 hi))
  | some i =>
    rw [List.find?_range_eq_some] at hfind
    obtain ⟨hset, hmem, hbelow⟩ := hfind
    refine ⟨List.mem_range.1 hmem, hset, fun j hj => ?_⟩
    simpa using hbelow j hj

theorem eq_bit_or_clear (hp : p < 32) (h : problems.getLsbD p = true) :
    problems = bit p ||| (problems &&& ~~~bit p) := by
  apply BitVec.eq_of_getLsbD_eq
  intro i hi
  rw [BitVec.getLsbD_or, BitVec.getLsbD_and, BitVec.getLsbD_not, getLsbD_bit hp]
  by_cases hip : i = p
  · subst hip
    simp [h]
  · simp [hip, hi]

theorem handleProblems_eq (h : ∀ i < 32 - n, problems.getLsbD i = false) :
    handleProblems rejects replaces n problems uv disallowed errors =
      (if has problems replaces then unicodeReplacement else uv,
        disallowed || has problems rejects, errors ||| problems) := by
  induction n generalizing problems uv disallowed errors with
  | zero =>
    have hzero : problems = 0#32 := BitVec.eq_of_getLsbD_eq fun i hi => by
      rw [h i hi, BitVec.getLsbD_zero]
    simp [handleProblems, hzero]
  | succ n ih =>
    rw [handleProblems]
    by_cases hzero : problems = 0
    · rw [hzero, if_neg (not_not.2 rfl)]
      simp
    · obtain ⟨hp, hset, hbelow⟩ := lsbitPos32_spec hzero
      have hclear : ∀ i < 32 - n,
          (problems &&& ~~~bit (lsbitPos32 problems)).getLsbD i = false := by
        intro i hi
        rw [BitVec.getLsbD_and, BitVec.getLsbD_not, getLsbD_bit hp]
        by_cases hip : i = lsbitPos32 problems
        · simp [hip]
        · have hnot : problems.getLsbD i = false := by
            by_cases hlow : i < 32 - (n + 1)
            · exact h i hlow
            · apply hbelow
              by_contra hge
              have hlast : problems.getLsbD (lsbitPos32 problems) = false := h _ (by omega)
              rw [hset] at hlast
              cases hlast
          rw [hnot, Bool.false_and]
      have hsplit := eq_bit_or_clear hp hset
      generalize hq : problems &&& ~~~bit (lsbitPos32 problems) = rest at hclear hsplit
      rw [if_pos hzero]
      dsimp only
      rw [hq, ih hclear]
      conv_rhs => rw [hsplit, or_has, or_has]
      rw [BitVec.or_assoc]
      generalize has (bit (lsbitPos32 problems)) replaces = a
      generalize has (bit (lsbitPos32 problems)) rejects = b
      cases a <;> cases b <;> cases disallowed <;> cases has rest replaces <;>
        cases has rest rejects <;> rfl

theorem readyToHandleErrors_eq (flags problems : U32) (uv : UV) (curlen : Nat) :
    readyToHandleErrors flags problems uv curlen =
      if has problems (flags ^^^ defaultRejects) then
        if has flags utf8DieIfMalformed then .error .malformedCharacter
        else .ok ⟨false, if has problems (utf8AllowAny ||| utf8AllowEmpty |||
          (flags &&& utf8DisallowIllegalInterchange)) then unicodeReplacement else uv,
          curlen, problems⟩
      else .ok ⟨true, if has problems (utf8AllowAny ||| utf8AllowEmpty |||
        (flags &&& utf8DisallowIllegalInterchange)) then unicodeReplacement else uv,
        curlen, problems⟩ := by
  have hdie : has (flags &&& ~~~utf8CheckOnly) utf8DieIfMalformed = has flags utf8DieIfMalformed := by
    rw [utf8DieIfMalformed, has_bit (by decide), has_bit (by decide), BitVec.getLsbD_and,
      BitVec.getLsbD_not, utf8CheckOnly, getLsbD_bit (by decide)]
    simp
  have hor : (0 : U32) ||| problems = problems := BitVec.zero_or
  rw [readyToHandleErrors]
  by_cases hzero : problems = 0
  · rw [hzero, if_neg (not_not.2 rfl)]
    simp
  · rw [if_pos hzero]
    dsimp only
    rw [handleProblems_eq (fun i hi => absurd hi (Nat.not_lt_zero i)), hdie, Bool.false_or,
      hor]

end XPerl.Utf8
