import Mathlib.Tactic.Common

/-! Copies up to a delimiter, which backslashes may escape. -/

namespace XPerl.StringOps

variable {src dest out seg : List UInt8} {delim : UInt8} {i k n : Nat}

def backslash : UInt8 := 0x5C

/-- `memchr`, from an offset to the end of the source. -/
def memchr (src : List UInt8) (start : Nat) (c : UInt8) : Option Nat :=
  ((src.drop start).findIdx? (· = c)).map (start + ·)

/-- `Copy` to an offset of the destination; none where it leaves it. -/
def copyTo (dest : List UInt8) (toPos : Nat) (xs : List UInt8) : Option (List UInt8) :=
  if toPos + xs.length ≤ dest.length then
    some (dest.take toPos ++ xs ++ dest.drop (toPos + xs.length))
  else none

def delimcpyOutOfBoundsRet : Int := 0x7FFFFFFF

def toI32 (len : Nat) : Int := (BitVec.ofNat 32 len).toInt

/-- What the copy leaves: the destination, `*retlen` and the position in the source. -/
structure Delimcpy where
  dest : List UInt8
  retlen : Int
  position : Nat
deriving DecidableEq

def delimcpyNoEscape (dest src : List UInt8) (delim : UInt8) : Option Delimcpy := do
  let copyLen := (memchr src 0 delim).getD src.length
  if dest.length < copyLen then
    let dest ← copyTo dest 0 (src.take dest.length)
    return ⟨dest, delimcpyOutOfBoundsRet, copyLen⟩
  else
    let dest ← copyTo dest 0 (src.take copyLen)
    return ⟨if copyLen < dest.length then dest.set copyLen 0 else dest, toI32 copyLen, copyLen⟩

/-- Where the backslashes start that end at an offset, no further back than `fromPos`. -/
def backUp (src : List UInt8) (fromPos : Nat) : Nat → Nat
  | 0 => 0
  | b + 1 => if fromPos ≤ b ∧ src[b]? = some backslash then backUp src fromPos b else b + 1

structure Copying where
  dest : List UInt8
  toPos : Nat
  fromPos : Nat
  stoppedEarly : Bool

/-- The copy of what is before an escaped delimiter, but not beyond the end of the destination. -/
def copyPart (src : List UInt8) (s : Copying) (delimPos : Nat) : Option Copying :=
  let copyLen := delimPos - 1 - s.fromPos
  let room := s.dest.length - s.toPos
  let segment := (src.drop s.fromPos).take copyLen
  if room ≤ copyLen then
    (copyTo s.dest s.toPos (segment.take room)).map fun dest => ⟨dest, dest.length, delimPos, true⟩
  else
    (copyTo s.dest s.toPos segment).map fun dest =>
      ⟨dest, s.toPos + copyLen, delimPos, s.stoppedEarly⟩

def delimcpyLoop (src : List UInt8) (delim : UInt8) : Nat → Copying → Option (Nat × Copying)
  | 0, s => some (src.length - s.fromPos, s)
  | n + 1, s =>
    match memchr src (s.fromPos + 1) delim with
    | none => some (src.length - s.fromPos, s)
    | some delimPos =>
      if src[delimPos - 1]? ≠ some backslash then some (delimPos - s.fromPos, s)
      else if (delimPos - backUp src s.fromPos (delimPos - 1)) % 2 = 0 then
        some (delimPos - s.fromPos, s)
      else (copyPart src s delimPos).bind (delimcpyLoop src delim n)

/-- The copy of the final segment, and a NUL where there is room. -/
def copyLast (src : List UInt8) (copyLen : Nat) (s : Copying) : Option Delimcpy :=
  let room := s.dest.length - s.toPos
  let segment := (src.drop s.fromPos).take copyLen
  if s.stoppedEarly = true ∨ room < copyLen then
    (copyTo s.dest s.toPos (segment.take room)).map fun dest =>
      ⟨dest, delimcpyOutOfBoundsRet, s.fromPos + copyLen⟩
  else
    (copyTo s.dest s.toPos segment).map fun dest =>
      let toPos := s.toPos + copyLen
      ⟨if toPos < dest.length then dest.set toPos 0 else dest, toI32 toPos, s.fromPos + copyLen⟩

/-- `delimcpy`, of the bytes up to `from_end` into those up to `to_end`. -/
def delimcpy (dest src : List UInt8) (delim : UInt8) : Option Delimcpy :=
  (if src ≠ [] ∧ src[0]? ≠ some delim then delimcpyLoop src delim src.length ⟨dest, 0, 0, false⟩
    else some (0, ⟨dest, 0, 0, false⟩)).bind fun (copyLen, s) => copyLast src copyLen s

def runBefore (src : List UInt8) : Nat → Nat
  | 0 => 0
  | i + 1 => if src[i]? = some backslash then runBefore src i + 1 else 0

/-- A delimiter that is not escaped. -/
def Stops (src : List UInt8) (delim : UInt8) (i : Nat) : Prop :=
  src[i]? = some delim ∧ runBefore src i % 2 = 0

instance (src : List UInt8) (delim : UInt8) (i : Nat) : Decidable (Stops src delim i) :=
  inferInstanceAs (Decidable (_ ∧ _))

/-- The first delimiter that is not escaped, or the end. -/
def stopPosition (src : List UInt8) (delim : UInt8) : Nat :=
  ((List.range src.length).find? fun i => decide (Stops src delim i)).getD src.length

def strip (delim : UInt8) : List UInt8 → List UInt8
  | a :: b :: text =>
    if a = backslash ∧ b = delim then strip delim (b :: text) else a :: strip delim (b :: text)
  | text => text

/-- The text that is to be copied. -/
def copied (src : List UInt8) (delim : UInt8) : List UInt8 :=
  strip delim (src.take (stopPosition src delim))

def written (dest text : List UInt8) : List UInt8 :=
  text.take dest.length ++ dest.drop text.length

/-- The copy does what it is documented to do. -/
structure Copies (dest src : List UInt8) (delim : UInt8) (r : Delimcpy) : Prop where
  position : r.position = stopPosition src delim
  fits : (copied src delim).length ≤ dest.length →
    r.retlen = (copied src delim).length ∧ r.dest = written dest (copied src delim ++ [0])
  full : dest.length < (copied src delim).length →
    (dest.length : Int) < r.retlen ∧ r.dest = written dest (copied src delim)

theorem memchr_none (h : memchr src n delim = none) (hi : n ≤ i) : src[i]? ≠ some delim := by
  rw [memchr, Option.map_eq_none_iff, List.findIdx?_eq_none_iff] at h
  intro hget
  have hmem : delim ∈ src.drop n := by
    rw [List.mem_iff_getElem?]
    exact ⟨i - n, by rw [List.getElem?_drop, Nat.add_sub_cancel' hi, hget]⟩
  simpa using h delim hmem

theorem memchr_some (h : memchr src n delim = some k) :
    n ≤ k ∧ src[k]? = some delim ∧ ∀ i, n ≤ i → i < k → src[i]? ≠ some delim := by
  rw [memchr, Option.map_eq_some_iff] at h
  obtain ⟨d, hd, rfl⟩ := h
  rw [List.findIdx?_eq_some_iff_getElem] at hd
  obtain ⟨hlt, hget, hbefore⟩ := hd
  refine ⟨Nat.le_add_right n d, ?_, fun i hn hi hsome => ?_⟩
  · rw [← List.getElem?_drop, List.getElem?_eq_getElem hlt]
    simpa using hget
  · have hno := hbefore (i - n) (by omega)
    rw [show i = n + (i - n) by omega, ← List.getElem?_drop,
      List.getElem?_eq_getElem (by omega)] at hsome
    simp only [Option.some.injEq] at hsome
    simp [hsome] at hno

theorem backUp_add_runBefore {fromPos b : Nat}
    (hfirst : fromPos = 0 ∨ src[fromPos]? ≠ some backslash) (hb : fromPos = 0 ∨ fromPos < b) :
    backUp src fromPos b + runBefore src b = b := by
  induction b with
  | zero => rfl
  | succ b ih =>
    rw [backUp, runBefore]
    by_cases hslash : src[b]? = some backslash
    · have hfrom : fromPos = 0 ∨ fromPos < b := by
        refine hfirst.imp_right fun hno => ?_
        have hne : fromPos ≠ b := fun heq => hno (heq ▸ hslash)
        omega
      rw [if_pos ⟨by omega, hslash⟩, if_pos hslash, ← Nat.add_assoc, ih hfrom]
    · rw [if_neg fun h => hslash h.2, if_neg hslash]

theorem stopPosition_eq (hk : k ≤ src.length) (hbefore : ∀ i < k, ¬ Stops src delim i)
    (hstop : k < src.length → Stops src delim k) : stopPosition src delim = k := by
  rw [stopPosition]
  rcases Nat.lt_or_eq_of_le hk with hlt | rfl
  · have hfind : (List.range src.length).find? (fun i => decide (Stops src delim i)) = some k := by
      rw [List.find?_range_eq_some]
      refine ⟨by simpa using hstop hlt, by simpa using hlt, fun i hi => by simpa using hbefore i hi⟩
    rw [hfind]
    rfl
  · have hfind : (List.range src.length).find? (fun i => decide (Stops src delim i)) = none := by
      rw [List.find?_eq_none]
      intro i hi
      simpa using hbefore i (List.mem_range.1 hi)
    rw [hfind]
    rfl

theorem strip_append (hseg : delim ∉ seg.tail) (text : List UInt8)
    (htext : text.head? ≠ some delim) :
    strip delim (seg ++ text) = seg ++ strip delim text := by
  induction seg with
  | nil => rfl
  | cons a seg ih =>
    have hseg' : delim ∉ seg := hseg
    cases seg with
    | nil =>
      cases text with
      | nil => rfl
      | cons b text =>
        have hb : b ≠ delim := by simpa using htext
        rw [List.singleton_append, strip, if_neg fun h => hb h.2]
        rfl
    | cons b seg =>
      have hb : b ≠ delim := fun heq => hseg' (heq ▸ List.mem_cons_self)
      rw [List.cons_append, List.cons_append, strip, if_neg fun h => hb h.2, ← List.cons_append,
        ih fun hmem => hseg' (List.mem_cons_of_mem b hmem)]
      rfl

theorem strip_self (hseg : delim ∉ seg.tail) : strip delim seg = seg := by
  simpa [strip] using strip_append hseg [] (by simp)

theorem strip_escaped (hdelim : delim ≠ backslash) (hseg : delim ∉ seg.tail) (text : List UInt8) :
    strip delim (seg ++ backslash :: delim :: text) = seg ++ strip delim (delim :: text) := by
  rw [strip_append hseg _ (by simpa using Ne.symm hdelim), strip, if_pos ⟨rfl, rfl⟩]

@[simp] theorem length_written (dest text : List UInt8) :
    (written dest text).length = dest.length := by
  rw [written, List.length_append, List.length_take, List.length_drop]
  omega

theorem copyTo_written (dest out seg : List UInt8) :
    copyTo (written dest out) (min out.length dest.length)
        (seg.take (dest.length - min out.length dest.length)) =
      some (written dest (out ++ seg)) := by
  rcases Nat.le_total out.length dest.length with hle | hle
  · rw [Nat.min_eq_left hle, copyTo, if_pos (by
      rw [length_written, List.length_take]
      omega)]
    have htake : out.take dest.length = out := List.take_of_length_le hle
    rw [written, written, htake, List.take_left, ← List.drop_drop, List.drop_left, List.drop_drop,
      List.take_append, htake, List.length_append]
    congr 2
    rw [List.length_take]
    rcases Nat.le_total seg.length (dest.length - out.length) with hseg | hseg
    · rw [Nat.min_eq_right hseg]
    · rw [List.drop_eq_nil_of_le (by omega), List.drop_eq_nil_of_le (by omega)]
  · have hdrop (text : List UInt8) (h : out.length ≤ text.length) : dest.drop text.length = [] :=
      List.drop_eq_nil_of_le (by omega)
    rw [Nat.min_eq_right hle, Nat.sub_self, List.take_zero, copyTo, if_pos (by simp)]
    simp [written, List.take_append_of_le_length hle, hdrop out (Nat.le_refl _), List.take_take,
      List.drop_eq_nil_of_le (show dest.length ≤ out.length + seg.length by omega)]

theorem written_nul (dest text : List UInt8) (h : text.length ≤ dest.length) :
    (if text.length < dest.length then (written dest text).set text.length 0
      else written dest text) =
      written dest (text ++ [0]) := by
  rw [written, written, List.take_of_length_le h, List.length_append, List.length_singleton]
  split_ifs with hroom
  · rw [List.set_append_right _ _ (Nat.le_refl _), Nat.sub_self, List.take_of_length_le (by simpa),
      List.drop_eq_getElem_cons hroom, List.set_cons_zero, List.append_assoc]
    rfl
  · rw [List.take_append_of_le_length (by omega), List.take_of_length_le (by omega),
      List.drop_eq_nil_of_le (by omega), List.drop_eq_nil_of_le (by omega)]

section Loop

variable {s : Copying}

/-- What holds where the source is copied on: the byte belongs to the text, and what is before it
has been copied as far as it fits. -/
structure Copied (src dest : List UInt8) (delim : UInt8) (out : List UInt8) (s : Copying) :
    Prop where
  inside : s.fromPos < src.length
  first : s.fromPos = 0 ∨ src[s.fromPos]? = some delim
  goes : ∀ i ≤ s.fromPos, ¬ Stops src delim i
  text : ∀ k, 1 ≤ k →
    strip delim (src.take (s.fromPos + k)) = out ++ strip delim ((src.drop s.fromPos).take k)
  holds : s.dest = written dest out
  toPos : s.toPos = min out.length dest.length
  early : s.stoppedEarly = true → dest.length ≤ out.length
  inTime : s.stoppedEarly = false → out.length ≤ dest.length

/-- Where the loop ends: the rest of the text has no delimiter behind its first byte. -/
structure Ends (src : List UInt8) (delim : UInt8) (s : Copying) (k : Nat) : Prop where
  pos : 1 ≤ k
  inside : s.fromPos + k ≤ src.length
  goes : ∀ i < s.fromPos + k, ¬ Stops src delim i
  stops : s.fromPos + k < src.length → Stops src delim (s.fromPos + k)
  clear : delim ∉ ((src.drop s.fromPos).take k).tail

theorem not_mem_segment {n e : Nat} (h : ∀ i, n + 1 ≤ i → i < e → src[i]? ≠ some delim) :
    delim ∉ ((src.drop n).take (e - n)).tail := by
  intro hmem
  obtain ⟨i, hi, hget⟩ := List.mem_iff_getElem.1 hmem
  rw [List.length_tail, List.length_take, List.length_drop] at hi
  rw [List.getElem_tail, List.getElem_take, List.getElem_drop] at hget
  refine h (n + (i + 1)) (by omega) (by omega) ?_
  rw [List.getElem?_eq_getElem (by omega), hget]

variable (hdelim : delim ≠ backslash)
include hdelim

theorem Copied.next (h : Copied src dest delim out s) {delimPos : Nat}
    (hlt : s.fromPos + 1 ≤ delimPos) (hget : src[delimPos]? = some delim)
    (hclear : ∀ i, s.fromPos + 1 ≤ i → i < delimPos → src[i]? ≠ some delim)
    (hslash : src[delimPos - 1]? = some backslash) (hno : ¬ Stops src delim delimPos) :
    ∃ s', copyPart src s delimPos = some s' ∧ s'.fromPos = delimPos ∧
      Copied src dest delim (out ++ (src.drop s.fromPos).take (delimPos - 1 - s.fromPos)) s' := by
  obtain ⟨hinside, hfirst, hgoes, htext, hdest, htoPos, hearly, hinTime⟩ := h
  have hdelimPos : delimPos < src.length := by
    by_contra hge
    rw [List.getElem?_eq_none (by omega)] at hget
    cases hget
  have hlength : ((src.drop s.fromPos).take (delimPos - 1 - s.fromPos)).length =
      delimPos - 1 - s.fromPos := by
    rw [List.length_take, List.length_drop]
    omega
  have hcopy := copyTo_written dest out ((src.drop s.fromPos).take (delimPos - 1 - s.fromPos))
  have hgoes' : ∀ i ≤ delimPos, ¬ Stops src delim i := by
    intro i hi hstop
    rcases Nat.lt_or_ge s.fromPos i with hbehind | hle
    · rcases Nat.lt_or_eq_of_le hi with hbefore | rfl
      · exact hclear i hbehind hbefore hstop.1
      · exact hno hstop
    · exact hgoes i hle hstop
  have htext' : ∀ k, 1 ≤ k → strip delim (src.take (delimPos + k)) =
      out ++ (src.drop s.fromPos).take (delimPos - 1 - s.fromPos) ++
        strip delim ((src.drop delimPos).take k) := by
    intro k hk
    have hsplit : (src.drop s.fromPos).take (delimPos + k - s.fromPos) =
        (src.drop s.fromPos).take (delimPos - 1 - s.fromPos) ++
          backslash :: (src.drop delimPos).take k := by
      have hback : (src.drop s.fromPos)[delimPos - 1 - s.fromPos]? = some backslash := by
        rw [List.getElem?_drop, ← hslash]
        congr 1
        omega
      rw [show delimPos + k - s.fromPos = delimPos - 1 - s.fromPos + (1 + k) by omega,
        List.take_add, Nat.add_comm 1 k]
      congr 1
      rw [List.drop_drop, show s.fromPos + (delimPos - 1 - s.fromPos) = delimPos - 1 by omega]
      rw [List.getElem?_drop, show s.fromPos + (delimPos - 1 - s.fromPos) = delimPos - 1 by omega]
        at hback
      obtain ⟨hlt', heq⟩ := List.getElem?_eq_some_iff.1 hback
      rw [List.drop_eq_getElem_cons hlt', heq, List.take_succ_cons,
        show delimPos - 1 + 1 = delimPos by omega]
    obtain ⟨ys, hys⟩ : ∃ ys, (src.drop delimPos).take k = delim :: ys := by
      obtain ⟨hlt', heq⟩ := List.getElem?_eq_some_iff.1 hget
      obtain ⟨k, rfl⟩ : ∃ m, k = m + 1 := ⟨k - 1, by omega⟩
      rw [List.drop_eq_getElem_cons hlt', heq, List.take_succ_cons]
      exact ⟨_, rfl⟩
    have hseg : delim ∉ ((src.drop s.fromPos).take (delimPos - 1 - s.fromPos)).tail :=
      not_mem_segment fun i hn hi => hclear i hn (by omega)
    rw [show delimPos + k = s.fromPos + (delimPos + k - s.fromPos) by omega,
      htext _ (by omega), hsplit, hys, strip_escaped hdelim hseg, List.append_assoc]
  rw [copyPart, hdest, length_written, htoPos]
  by_cases hfull : dest.length - min out.length dest.length ≤ delimPos - 1 - s.fromPos
  · rw [if_pos hfull, hcopy]
    refine ⟨_, rfl, rfl, hdelimPos, .inr hget, hgoes', htext', rfl, ?_, fun _ => ?_, nofun⟩
    · change (written _ _).length = _
      rw [length_written, List.length_append, hlength]
      omega
    · rw [List.length_append, hlength]
      omega
  · rw [List.take_of_length_le (by rw [hlength]; omega)] at hcopy
    rw [if_neg hfull, hcopy]
    refine ⟨_, rfl, rfl, hdelimPos, .inr hget, hgoes', htext', rfl, ?_, fun h => ?_, fun _ => ?_⟩
    · change min _ _ + _ = _
      rw [List.length_append, hlength]
      omega
    · have hle := hearly h
      omega
    · rw [List.length_append, hlength]
      omega

theorem delimcpyLoop_spec (h : Copied src dest delim out s) (hn : src.length ≤ s.fromPos + n) :
    ∃ k s' out', delimcpyLoop src delim n s = some (k, s') ∧ Copied src dest delim out' s' ∧
      Ends src delim s' k := by
  induction n generalizing s out with
  | zero =>
    have hinside := h.inside
    omega
  | succ n ih =>
    have hinside := h.inside
    rw [delimcpyLoop]
    cases hmemchr : memchr src (s.fromPos + 1) delim with
    | none =>
      have hclear : ∀ i, s.fromPos + 1 ≤ i → src[i]? ≠ some delim := fun i => memchr_none hmemchr
      refine ⟨_, s, out, rfl, h, by omega, by omega, fun i _ hstop => ?_, fun hlt => by omega,
        not_mem_segment fun i hi _ => hclear i hi⟩
      rcases Nat.lt_or_ge s.fromPos i with hbehind | hle
      · exact hclear i hbehind hstop.1
      · exact h.goes i hle hstop
    | some delimPos =>
      obtain ⟨hle, hget, hclear⟩ := memchr_some hmemchr
      have hdelimPos : delimPos < src.length := by
        by_contra hge
        rw [List.getElem?_eq_none (by omega)] at hget
        cases hget
      obtain ⟨d, rfl⟩ : ∃ d, delimPos = d + 1 := ⟨delimPos - 1, by omega⟩
      have hends (hstop : runBefore src (d + 1) % 2 = 0) :
          Ends src delim s (d + 1 - s.fromPos) := by
        refine ⟨by omega, by omega, fun i hi hstops => ?_, fun _ => ?_,
          not_mem_segment fun i hi hlt => hclear i hi hlt⟩
        · rcases Nat.lt_or_ge s.fromPos i with hbehind | hle'
          · exact hclear i hbehind (by omega) hstops.1
          · exact h.goes i hle' hstops
        · rw [show s.fromPos + (d + 1 - s.fromPos) = d + 1 by omega]
          exact ⟨hget, hstop⟩
      dsimp only
      rw [Nat.add_sub_cancel]
      by_cases hslash : src[d]? = some backslash
      · have hrun : runBefore src (d + 1) = runBefore src d + 1 := by
          rw [runBefore, if_pos hslash]
        have hfirst : s.fromPos = 0 ∨ src[s.fromPos]? ≠ some backslash :=
          h.first.imp_right fun heq hback => hdelim (Option.some.inj (heq.symm.trans hback))
        have hbehind : s.fromPos = 0 ∨ s.fromPos < d := by
          refine hfirst.imp_right fun hno => ?_
          have hne : s.fromPos ≠ d := fun heq => hno (heq ▸ hslash)
          omega
        have hback := backUp_add_runBefore hfirst hbehind
        rw [if_neg (not_not_intro hslash)]
        by_cases heven : runBefore src (d + 1) % 2 = 0
        · rw [if_pos (by omega)]
          exact ⟨_, s, out, rfl, h, hends heven⟩
        · rw [if_neg (by omega)]
          obtain ⟨s', hpart, hfrom, hcopied⟩ := h.next hdelim hle hget hclear hslash
            fun hstop => heven hstop.2
          rw [hpart, Option.bind_some]
          exact ih hcopied (by omega)
      · rw [if_pos hslash]
        exact ⟨_, s, out, rfl, h, hends (by rw [runBefore, if_neg hslash])⟩

end Loop

theorem toI32_eq_iff (len : Nat) : toI32 len = len ↔ len ≤ 0x7FFFFFFF := by
  rw [toI32, BitVec.toInt_eq_toNat_cond, BitVec.toNat_ofNat]
  split_ifs <;> omega

theorem delimcpy_spec (hdelim : delim ≠ backslash) (dest src : List UInt8) :
    delimcpy dest src delim = some
      (if dest.length < (copied src delim).length then
        ⟨written dest (copied src delim), delimcpyOutOfBoundsRet, stopPosition src delim⟩
      else
        ⟨written dest (copied src delim ++ [0]), toI32 (copied src delim).length,
          stopPosition src delim⟩) := by
  obtain ⟨k, s, out, hrun, hholds, htoPos, hearly, hinTime, hstop, hcopied, hk⟩ :
      ∃ k s out, (if src ≠ [] ∧ src[0]? ≠ some delim then
          delimcpyLoop src delim src.length ⟨dest, 0, 0, false⟩
          else some (0, ⟨dest, 0, 0, false⟩)) = some (k, s) ∧
        s.dest = written dest out ∧ s.toPos = min out.length dest.length ∧
        (s.stoppedEarly = true → dest.length ≤ out.length ∧ 1 ≤ k) ∧
        (s.stoppedEarly = false → out.length ≤ dest.length) ∧
        stopPosition src delim = s.fromPos + k ∧
        copied src delim = out ++ (src.drop s.fromPos).take k ∧
        s.fromPos + k ≤ src.length := by
    by_cases hfirst : src ≠ [] ∧ src[0]? ≠ some delim
    · have hstart : Copied src dest delim [] ⟨dest, 0, 0, false⟩ :=
        ⟨List.length_pos_iff.2 hfirst.1, .inl rfl,
          fun i hi hstop => hfirst.2 (Nat.le_zero.1 hi ▸ hstop.1), fun k _ => by simp,
          by simp [written], (Nat.zero_min _).symm, nofun, fun _ => Nat.zero_le _⟩
      obtain ⟨k, s, out, hloop, hcopied, hends⟩ :=
        delimcpyLoop_spec hdelim hstart (Nat.le_add_left _ _)
      have hstop := stopPosition_eq hends.inside hends.goes hends.stops
      refine ⟨k, s, out, by rw [if_pos hfirst, hloop], hcopied.holds, hcopied.toPos,
        fun h => ⟨hcopied.early h, hends.pos⟩, hcopied.inTime, hstop, ?_, hends.inside⟩
      rw [copied, hstop, hcopied.text k hends.pos, strip_self hends.clear]
    · have hstop : stopPosition src delim = 0 := by
        refine stopPosition_eq (Nat.zero_le _) (fun i hi => absurd hi (Nat.not_lt_zero i))
          fun hlt => ?_
        exact ⟨by_contra fun hno => hfirst ⟨List.length_pos_iff.1 hlt, hno⟩, rfl⟩
      refine ⟨0, _, [], if_neg hfirst, by simp [written], (Nat.zero_min _).symm, nofun,
        fun _ => Nat.zero_le _, hstop, ?_, Nat.zero_le _⟩
      rw [copied, hstop]
      rfl
  have hlength : ((src.drop s.fromPos).take k).length = k := by
    rw [List.length_take, List.length_drop]
    omega
  have hcopy := copyTo_written dest out ((src.drop s.fromPos).take k)
  rw [delimcpy, hrun, Option.bind_some]
  dsimp only
  rw [copyLast, hholds, length_written, htoPos, hstop, hcopied,
    List.length_append, hlength]
  by_cases hfull : dest.length < out.length + k
  · have hcond : s.stoppedEarly = true ∨ dest.length - min out.length dest.length < k := by
      cases hs : s.stoppedEarly with
      | true => exact .inl rfl
      | false =>
        have hle := hinTime hs
        exact .inr (by omega)
    rw [if_pos hcond, if_pos hfull, hcopy]
    rfl
  · have hcond : ¬ (s.stoppedEarly = true ∨ dest.length - min out.length dest.length < k) := by
      rintro (hs | hlt)
      · have hle := hearly hs
        omega
      · omega
    have hmin : min out.length dest.length + k = out.length + k := by omega
    rw [List.take_of_length_le (by rw [hlength]; omega)] at hcopy
    rw [if_neg hcond, if_neg hfull, hcopy, hmin]
    have hnul := written_nul dest (out ++ (src.drop s.fromPos).take k)
    rw [List.length_append, hlength] at hnul
    rw [Option.map_some, length_written]
    dsimp only
    rw [hnul (by omega)]

theorem copied_self (h : delim ∉ src) : copied src delim = src := by
  have hno (i : Nat) : ¬ Stops src delim i := fun hstop => h (List.mem_of_getElem? hstop.1)
  have hstop := stopPosition_eq (Nat.le_refl src.length) (fun i _ => hno i)
    fun hlt => absurd hlt (Nat.lt_irrefl _)
  rw [copied, hstop, List.take_length]
  exact strip_self fun hmem => h (List.mem_of_mem_tail hmem)

/-- Position and bytes are right, and `*retlen` is where an `I32` can tell it. -/
theorem delimcpy_exact (hdelim : delim ≠ backslash) (dest src : List UInt8) :
    ∃ r, delimcpy dest src delim = some r ∧ r.position = stopPosition src delim ∧
      (Copies dest src delim r ↔
        dest.length < 0x7FFFFFFF ∨ (copied src delim).length ≤ 0x7FFFFFFF) := by
  refine ⟨_, delimcpy_spec hdelim dest src, ?_, ?_⟩
  · split_ifs <;> rfl
  · split_ifs with hfull
    · constructor
      · intro h
        have hlt : (dest.length : Int) < 0x7FFFFFFF := (h.full hfull).1
        omega
      · intro h
        refine ⟨rfl, fun hle => absurd hfull (Nat.not_lt.2 hle), fun _ => ⟨?_, rfl⟩⟩
        change (dest.length : Int) < 0x7FFFFFFF
        omega
    · have hiff := toI32_eq_iff (copied src delim).length
      constructor
      · intro h
        exact .inr (hiff.1 (h.fits (Nat.not_lt.1 hfull)).1)
      · intro h
        refine ⟨rfl, fun _ => ⟨hiff.2 (by omega), rfl⟩, fun hlt => absurd hlt hfull⟩

/-- Two escapes and a delimiter behind an even number of backslashes. -/
theorem delimcpy_exact_escapes :
    ∃ r, delimcpy (List.replicate 9 1)
        [0x61, 0x5C, 0x3A, 0x5C, 0x5C, 0x5C, 0x3A, 0x5C, 0x5C, 0x3A, 0x62] 0x3A = some r ∧
      r.position = stopPosition
        [0x61, 0x5C, 0x3A, 0x5C, 0x5C, 0x5C, 0x3A, 0x5C, 0x5C, 0x3A, 0x62] 0x3A ∧
      (Copies (List.replicate 9 1)
          [0x61, 0x5C, 0x3A, 0x5C, 0x5C, 0x5C, 0x3A, 0x5C, 0x5C, 0x3A, 0x62] 0x3A r ↔
        (List.replicate 9 (1 : UInt8)).length < 0x7FFFFFFF ∨
          (copied [0x61, 0x5C, 0x3A, 0x5C, 0x5C, 0x5C, 0x3A, 0x5C, 0x5C, 0x3A, 0x62] 0x3A).length ≤
            0x7FFFFFFF) :=
  delimcpy_exact (by decide) _ _

/-- What does not fit into a destination of `I32_MAX` bytes leaves no more than that in
`*retlen`. -/
theorem delimcpy_fails :
    ¬ ∀ (dest src : List UInt8) (delim : UInt8), delim ≠ backslash →
      ∃ r, delimcpy dest src delim = some r ∧ Copies dest src delim r := by
  intro hall
  obtain ⟨r, hr, hcopies⟩ := hall (List.replicate 0x7FFFFFFF 0) (List.replicate 0x80000000 0x61)
    0x3A (by decide)
  have hcopied : copied (List.replicate 0x80000000 0x61) 0x3A = List.replicate 0x80000000 0x61 :=
    copied_self fun hmem => absurd (List.eq_of_mem_replicate hmem) (by decide)
  have hfull : (List.replicate 0x7FFFFFFF (0 : UInt8)).length <
      (copied (List.replicate 0x80000000 0x61) 0x3A).length := by
    rw [hcopied, List.length_replicate, List.length_replicate]
    decide
  rw [delimcpy_spec (by decide), if_pos hfull, Option.some.injEq] at hr
  have hlt := (hcopies.full hfull).1
  rw [← hr, List.length_replicate] at hlt
  exact absurd hlt (by decide)

end XPerl.StringOps
