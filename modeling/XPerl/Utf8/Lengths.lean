import XPerl.Utf8.Sequences
import XPerl.Utf8.WholeStrings

/-! Scans by words of either byte order, and the count of characters. -/

namespace XPerl.Utf8

open XPerl.Framework.Lanes

/-- `BYTEORDER` -/
inductive ByteOrder where
  | little
  | big
deriving DecidableEq

namespace ByteOrder

variable (order : ByteOrder)

def lane : ByteOrder → Nat → Nat
  | .little, k => k
  | .big, k => 7 - k

def loadWord (block : List U8) (i : Nat) : BitVec 64 :=
  ofBytes fun k => byteAt block (i + order.lane k)

def msbitPos (word : BitVec 64) : Nat :=
  63 ^^^ ((List.range 64).find? fun i => word.getMsbD i).getD 64

def variantByteNumber (word : BitVec 64) : Nat :=
  match order with
  | .little => Utf8.variantByteNumber word
  | .big => 8 - (((msbitPos (word &&& 0x8080808080808080) + 1) >>> 3) - 1) - 1

/-- The loop over words of `is_utf8_invariant_string_loc`. -/
def variantByWord (block : List U8) (send : Nat) : Nat → Nat → Scan
  | 0, x => .upTo x
  | n + 1, x =>
    if order.loadWord block x &&& 0x8080808080808080 ≠ 0 then
      .found (x + order.variantByteNumber (order.loadWord block x))
    else if x + 16 ≤ send then variantByWord block send n (x + 8)
    else .upTo (x + 8)

/-- The first variant; none if the function returns true. -/
def isUtf8InvariantStringLoc (address : Nat) (block : List U8) (len : Nat) : Option Nat :=
  -- `strlen` changes `len`, but not `send`, which the scan goes by.
  let send := len
  match worthPerWordLoop address 0 send 1 with
  | none => variantByByte block send send 0
  | some perByteEnd =>
    match variantByByte block perByteEnd perByteEnd 0 with
    | some x => some x
    | none =>
      match order.variantByWord block send send perByteEnd with
      | .found x => some x
      | .upTo x => variantByByte block send send x

/-- The loop over words of `variant_under_utf8_count`, with the place where it stops. -/
def countByWord (block : List U8) (e : Nat) : Nat → Nat → Nat → Nat × Nat
  | 0, x, count => (x, count)
  | n + 1, x, count =>
    let increment :=
      (((order.loadWord block x &&& 0x8080808080808080) >>> 7) * 0x0101010101010101) >>> 56
    if x + 16 ≤ e then countByWord block e n (x + 8) (count + increment.toNat)
    else (x + 8, count + increment.toNat)

def variantUnderUtf8Count (address : Nat) (block : List U8) (len : Nat) : Nat :=
  match worthPerWordLoop address 0 len 1 with
  | none => countByByte block len len 0 0
  | some perByteEnd =>
    let (x, count) :=
      order.countByWord block len len perByteEnd (countByByte block perByteEnd perByteEnd 0 0)
    countByByte block len len x count

section Orders

variable {order} {block : List U8} {i x : Nat}

theorem lane_lt (hi : i < 8) : order.lane i < 8 := by
  cases order with
  | little => exact hi
  | big => exact Nat.lt_of_le_of_lt (Nat.sub_le 7 i) (by decide)

theorem lane_lane (hi : i < 8) : order.lane (order.lane i) = i := by
  cases order with
  | little => rfl
  | big => exact Nat.sub_sub_self (Nat.le_of_lt_succ hi)

theorem forall_lane {c : Nat → Bool} :
    (∀ i < 8, c (order.lane i) = false) ↔ ∀ i < 8, c i = false := by
  constructor
  · intro h i hi
    have hback : order.lane (order.lane i) = i := lane_lane hi
    rw [← hback]
    exact h _ (lane_lt hi)
  · intro h i hi
    exact h _ (lane_lt hi)

theorem countP_lane (c : Nat → Bool) :
    (List.range 8).countP (fun k => c (order.lane k)) = (List.range 8).countP c := by
  have hperm : ((List.range 8).map order.lane).Perm (List.range 8) := by
    cases order <;> decide
  have hcount := hperm.countP_eq c
  rw [List.countP_map] at hcount
  exact hcount

theorem topBits_loadWord (block : List U8) (x : Nat) :
    order.loadWord block x &&& 0x8080808080808080 =
      marks fun k => !isInvariant (byteAt block (x + order.lane k)) := by
  have htop : (0x8080808080808080 : BitVec 64) = ofBytes fun _ => 0x80 := by decide
  rw [htop, loadWord, ofBytes_and, marks, ofBytes_inj]
  intro i _
  exact topBit_eq _

theorem topBits_eq_zero_iff :
    order.loadWord block x &&& 0x8080808080808080 = 0 ↔
      Utf8.loadWord block x &&& 0x8080808080808080 = 0 := by
  rw [topBits_loadWord, Utf8.topBits_loadWord, marks_eq_zero_iff, marks_eq_zero_iff]
  exact forall_lane (c := fun k => !isInvariant (byteAt block (x + k)))

theorem msbitPos_marks {c : Nat → Bool} (hi : i < 8) (hc : c (7 - i) = true)
    (hlast : ∀ j < i, c (7 - j) = false) : msbitPos (marks c) = 63 - 8 * i := by
  have hbit {k : Nat} (hk : k < 64) :
      (marks c).getMsbD k = (c (7 - k / 8) && decide (k % 8 = 0)) := by
    rw [BitVec.getMsbD, decide_eq_true hk, Bool.true_and, getLsbD_marks (by omega),
      show (64 - 1 - k) / 8 = 7 - k / 8 by omega,
      decide_eq_decide.2 (show (64 - 1 - k) % 8 = 7 ↔ k % 8 = 0 by omega)]
  have hfind : (List.range 64).find? (fun k => (marks c).getMsbD k) = some (8 * i) := by
    rw [List.find?_range_eq_some]
    refine ⟨?_, List.mem_range.2 (by omega), ?_⟩
    · rw [hbit (by omega), show 8 * i / 8 = i by omega, hc]
      simp
    · intro k hk
      rw [hbit (by omega)]
      by_cases htop : k % 8 = 0
      · rw [hlast (k / 8) (by omega)]
        rfl
      · rw [decide_eq_false htop, Bool.and_false]
        rfl
  have hxor : ∀ k < 64, 63 ^^^ k = 63 - k := by decide
  rw [msbitPos, hfind]
  exact hxor (8 * i) (by omega)

theorem variantByteNumber_loadWord (hi : i < 8)
    (hvariant : isInvariant (byteAt block (x + i)) = false)
    (hfirst : ∀ j < i, isInvariant (byteAt block (x + j)) = true) :
    order.variantByteNumber (order.loadWord block x) = i := by
  cases order with
  | little => exact Utf8.variantByteNumber_loadWord hi hvariant hfirst
  | big =>
    have hpos : msbitPos (big.loadWord block x &&& 0x8080808080808080) = 63 - 8 * i := by
      rw [topBits_loadWord]
      apply msbitPos_marks hi
      · rw [lane, Nat.sub_sub_self (Nat.le_of_lt_succ hi), hvariant]
        rfl
      · intro j hj
        rw [lane, Nat.sub_sub_self (by omega), hfirst j hj]
        rfl
    rw [variantByteNumber, hpos, Nat.shiftRight_eq_div_pow]
    omega

theorem variantByWord_eq (block : List U8) (send n x : Nat) :
    order.variantByWord block send n x = Utf8.variantByWord block send n x := by
  induction n generalizing x with
  | zero => rfl
  | succ n ih =>
    rw [variantByWord, Utf8.variantByWord, ih]
    by_cases hword : Utf8.loadWord block x &&& 0x8080808080808080 = 0
    · rw [if_neg (not_not.2 hword), if_neg (not_not.2 (topBits_eq_zero_iff.2 hword))]
    · rw [if_pos hword, if_pos (mt topBits_eq_zero_iff.1 hword)]
      have hsome : ∃ i, i < 8 ∧ isInvariant (byteAt block (x + i)) = false := by
        by_contra hnone
        rw [Utf8.topBits_loadWord] at hword
        refine hword (marks_eq_zero_iff.2 fun i hi => ?_)
        cases hc : isInvariant (byteAt block (x + i)) with
        | true => rfl
        | false => exact absurd ⟨i, hi, hc⟩ hnone
      obtain ⟨hlt, hvariant⟩ := Nat.find_spec hsome
      have hfirst : ∀ j < Nat.find hsome, isInvariant (byteAt block (x + j)) = true := by
        intro j hj
        have hmin := Nat.find_min hsome hj
        rw [not_and, Bool.not_eq_false] at hmin
        exact hmin (hj.trans hlt)
      rw [variantByteNumber_loadWord hlt hvariant hfirst,
        Utf8.variantByteNumber_loadWord hlt hvariant hfirst]

theorem isUtf8InvariantStringLoc_eq (address : Nat) (block : List U8) (len : Nat) :
    order.isUtf8InvariantStringLoc address block len =
      Utf8.isUtf8InvariantStringLoc address block len := by
  simp only [isUtf8InvariantStringLoc, Utf8.isUtf8InvariantStringLoc, variantByWord_eq]
  all_goals rfl

theorem countByWord_eq (block : List U8) (e n x count : Nat) :
    order.countByWord block e n x count = Utf8.countByWord block e n x count := by
  have hword (x : Nat) :
      ((((order.loadWord block x &&& 0x8080808080808080) >>> 7) * 0x0101010101010101) >>> 56) =
        (((Utf8.loadWord block x &&& 0x8080808080808080) >>> 7) * 0x0101010101010101) >>> 56 := by
    rw [topBits_loadWord, Utf8.topBits_loadWord, count_marks, count_marks,
      countP_lane (fun k => !isInvariant (byteAt block (x + k)))]
  induction n generalizing x count with
  | zero => rfl
  | succ n ih =>
    rw [countByWord, Utf8.countByWord, hword, ih]

theorem variantUnderUtf8Count_eq (address : Nat) (block : List U8) (len : Nat) :
    order.variantUnderUtf8Count address block len =
      Utf8.variantUnderUtf8Count address block len := by
  simp only [variantUnderUtf8Count, Utf8.variantUnderUtf8Count, countByWord_eq]
  all_goals rfl

end Orders

end ByteOrder

section Length

variable (order : ByteOrder)

/-- The loop of `utf8_length` that counts characters: where it stops, and how many there are. -/
def countCharacters (block : List U8) (e : Nat) : Nat → Nat → Nat → Nat × Nat
  | 0, s, len => (s, len)
  | n + 1, s, len =>
    if s < e then
      if e - s < utf8Skip (byteAt block s) then (s, len)
      else countCharacters block e n (s + utf8Skip (byteAt block s)) (len + 1)
    else (s, len)

def skipToWord (block : List U8) (perByteEnd : Nat) : Nat → Nat → Nat → Nat × Nat
  | 0, s, continuations => (s, continuations)
  | n + 1, s, continuations =>
    if s < perByteEnd then
      let skip := utf8Skip (byteAt block s)
      skipToWord block perByteEnd n (s + skip) (continuations + (skip - 1))
    else (s, continuations)

def continuationsOf (word : BitVec 64) : Nat :=
  (((((word &&& 0x8080808080808080) >>> 7) &&& ((~~~word) >>> 6)) * 0x0101010101010101) >>>
    56).toNat

def ByteOrder.skipWords (block : List U8) (eLimit : Nat) : Nat → Nat → Nat → Nat × Nat
  | 0, s, continuations => (s, continuations)
  | n + 1, s, continuations =>
    let continuations := continuations + continuationsOf (order.loadWord block s)
    if s + 16 ≤ eLimit then skipWords block eLimit n (s + 8) continuations
    else (s + 8, continuations)

def skipContinuations (block : List U8) (e : Nat) : Nat → Nat → Nat → Nat × Nat
  | 0, s, continuations => (s, continuations)
  | n + 1, s, continuations =>
    if s < e ∧ isContinuation (byteAt block s) then
      skipContinuations block e n (s + 1) (continuations + 1)
    else (s, continuations)

def skipCharacters (block : List U8) (e : Nat) : Nat → Nat → Nat → Nat × Nat
  | 0, s, continuations => (s, continuations)
  | n + 1, s, continuations =>
    if s < e then
      let expectedByteCount := utf8Skip (byteAt block s)
      if e - s < expectedByteCount then (s, continuations)
      else skipCharacters block e n (s + expectedByteCount) (continuations + (expectedByteCount - 1))
    else (s, continuations)

/-- The value of `utf8_length`, and whether it warns. -/
def ByteOrder.utf8Length (address : Nat) (block : List U8) (len : Nat) : Nat × Bool :=
  match worthPerWordLoop address 0 len 12 with
  | none =>
    let (s, count) := countCharacters block len len 0 0
    if len = s then (count, false) else (s, true)
  | some perByteEnd =>
    let eLimit := len - 13
    let (s, continuations) := skipToWord block perByteEnd len 0 0
    let continuations := continuations - (s - perByteEnd)
    let (s, continuations) := order.skipWords block eLimit len perByteEnd continuations
    let (s, continuations) := skipContinuations block len len s continuations
    let (s, continuations) := skipCharacters block len len s continuations
    if len = s then (s - continuations, false) else (s - continuations, true)

end Length

section Spans

variable {block : List U8} {x y z e c m n p : Nat}

/-- So many whole characters on a stretch. -/
inductive Spans (block : List U8) : Nat → Nat → Nat → Prop where
  | nil (x : Nat) : Spans block x x 0
  | cons {x e n : Nat} (first : isContinuation (byteAt block x) = false)
      (rest : ∀ i, x < i → i < x + utf8Skip (byteAt block x) →
        isContinuation (byteAt block i) = true)
      (more : Spans block (x + utf8Skip (byteAt block x)) e n) : Spans block x e (n + 1)

def EndsAt (block : List U8) (x e : Nat) : Prop :=
  x = e ∨ (x < e ∧ isContinuation (byteAt block x) = false ∧ e - x < utf8Skip (byteAt block x))

def continuationsOn (block : List U8) (x e : Nat) : Nat :=
  countOn (fun i => isContinuation (byteAt block i)) x e

theorem utf8Skip_range (b : U8) : 1 ≤ utf8Skip b ∧ utf8Skip b ≤ 13 := by
  rw [utf8Skip]
  split_ifs <;> decide

theorem continuationsOn_split (hxy : x ≤ y) (hyz : y ≤ z) :
    continuationsOn block x z = continuationsOn block x y + continuationsOn block y z :=
  countOn_split _ hxy hyz

theorem continuationsOn_all (h : ∀ i, x ≤ i → i < y → isContinuation (byteAt block i) = true) :
    continuationsOn block x y = y - x := by
  rw [continuationsOn, countOn, List.countP_eq_length.2, List.length_range']
  intro i hi
  rw [List.mem_range'_1] at hi
  exact h i hi.1 (by omega)

theorem continuationsOn_character (first : isContinuation (byteAt block x) = false)
    (rest : ∀ i, x < i → i < x + utf8Skip (byteAt block x) →
      isContinuation (byteAt block i) = true) :
    continuationsOn block x (x + utf8Skip (byteAt block x)) = utf8Skip (byteAt block x) - 1 := by
  have hskip := utf8Skip_range (byteAt block x)
  rw [continuationsOn_split (Nat.le_succ x) (by omega),
    continuationsOn_all fun i hi => rest i (by omega), continuationsOn, countOn_one, first,
    Bool.toNat_false]
  omega

namespace Spans

theorem le (h : Spans block x e n) : x ≤ e := by
  induction h with
  | nil x => exact Nat.le_refl x
  | cons first rest more ih => omega

theorem continuationsOn (h : Spans block x e n) : Utf8.continuationsOn block x e + n = e - x := by
  induction h with
  | nil x =>
    rw [Utf8.continuationsOn, countOn, Nat.sub_self]
    rfl
  | @cons x e n first rest more ih =>
    have hle := more.le
    have hskip := utf8Skip_range (byteAt block x)
    rw [continuationsOn_split (Nat.le_add_right x (utf8Skip (byteAt block x))) hle,
      continuationsOn_character first rest]
    omega

theorem split (h : Spans block x e n) (hx : x ≤ p) (hp : p ≤ e) :
    ∃ y b, p ≤ y ∧ Spans block y e b ∧
      ∀ i, p ≤ i → i < y → isContinuation (byteAt block i) = true := by
  induction h with
  | nil x => exact ⟨x, 0, hp, .nil x, fun i hi hi' => by omega⟩
  | @cons x e n first rest more ih =>
    by_cases hstart : p = x
    · subst hstart
      exact ⟨p, n + 1, Nat.le_refl p, .cons first rest more, fun i hi hi' => by omega⟩
    · by_cases hinside : p ≤ x + utf8Skip (byteAt block x)
      · exact ⟨_, n, hinside, more, fun i hi hi' => rest i (by omega) hi'⟩
      · exact ih (by omega) hp

end Spans

end Spans

section Loops

variable {order : ByteOrder} {block : List U8} {x y e c k m n p : Nat}

theorem countCharacters_eq (h : Spans block x y k) (hends : EndsAt block y e) (hfuel : e ≤ x + n) :
    countCharacters block e n x c = (y, c + k) := by
  induction h generalizing n c with
  | nil x =>
    cases n with
    | zero => rfl
    | succ n =>
      rw [countCharacters]
      rcases hends with rfl | ⟨hlt, -, hcut⟩
      · rw [if_neg (Nat.lt_irrefl x)]
        rfl
      · rw [if_pos hlt, if_pos hcut]
        rfl
  | @cons x y k first rest more ih =>
    have hle := more.le
    have hskip := utf8Skip_range (byteAt block x)
    have hye : y ≤ e := by
      rcases hends with rfl | ⟨hlt, -⟩
      · exact Nat.le_refl y
      · exact Nat.le_of_lt hlt
    obtain ⟨n, rfl⟩ : ∃ m, n = m + 1 := ⟨n - 1, by omega⟩
    rw [countCharacters, if_pos (by omega), if_neg (by omega), ih hends (by omega)]
    rw [Nat.add_assoc, Nat.add_comm 1 k]

theorem skipCharacters_eq (h : Spans block x y k) (hends : EndsAt block y e) (hfuel : e ≤ x + n) :
    skipCharacters block e n x c = (y, c + continuationsOn block x y) := by
  induction h generalizing n c with
  | nil x =>
    have hnone : continuationsOn block x x = 0 := countOn_self _ x
    rw [hnone]
    cases n with
    | zero => rfl
    | succ n =>
      rw [skipCharacters]
      rcases hends with rfl | ⟨hlt, -, hcut⟩
      · rw [if_neg (Nat.lt_irrefl x)]
        rfl
      · rw [if_pos hlt]
        dsimp only
        rw [if_pos hcut]
        rfl
  | @cons x y k first rest more ih =>
    have hle := more.le
    have hskip := utf8Skip_range (byteAt block x)
    have hye : y ≤ e := by
      rcases hends with rfl | ⟨hlt, -⟩
      · exact Nat.le_refl y
      · exact Nat.le_of_lt hlt
    obtain ⟨n, rfl⟩ : ∃ m, n = m + 1 := ⟨n - 1, by omega⟩
    rw [skipCharacters, if_pos (by omega)]
    dsimp only
    rw [if_neg (by omega), ih hends (by omega),
      continuationsOn_split (Nat.le_add_right x (utf8Skip (byteAt block x))) hle,
      continuationsOn_character first rest, Nat.add_assoc]

theorem skipToWord_spec (h : Spans block x e k) (hp : p ≤ e) (hfuel : p ≤ x + n)
    (hover : ∀ i, p ≤ i → i < x → isContinuation (byteAt block i) = true) :
    ∃ y, skipToWord block p n x c = (y, c + continuationsOn block x y) ∧ x ≤ y ∧
      p ≤ y ∧ ∀ i, p ≤ i → i < y → isContinuation (byteAt block i) = true := by
  have hstop (hx : p ≤ x) : skipToWord block p n x c = (x, c) := by
    cases n with
    | zero => rfl
    | succ n => rw [skipToWord, if_neg (Nat.not_lt.2 hx)]
  have hnone (x : Nat) : continuationsOn block x x = 0 := countOn_self _ x
  induction h generalizing n c with
  | nil x => exact ⟨x, by rw [hstop hp, hnone]; rfl, Nat.le_refl x, hp, hover⟩
  | @cons x e k first rest more ih =>
    by_cases hx : p ≤ x
    · exact ⟨x, by rw [hstop hx, hnone]; rfl, Nat.le_refl x, hx, hover⟩
    · have hskip := utf8Skip_range (byteAt block x)
      obtain ⟨n, rfl⟩ : ∃ m, n = m + 1 := ⟨n - 1, by omega⟩
      obtain ⟨y, hrun, hxy, hpy, hover'⟩ := ih (n := n)
        (c := c + (utf8Skip (byteAt block x) - 1)) hp (by omega)
        (fun i hi hi' => rest i (by omega) hi') (by
          intro hle
          cases n with
          | zero => rfl
          | succ n => rw [skipToWord, if_neg (Nat.not_lt.2 hle)])
      refine ⟨y, ?_, by omega, hpy, hover'⟩
      rw [skipToWord, if_pos (Nat.not_le.1 hx)]
      dsimp only
      rw [hrun, continuationsOn_split (Nat.le_add_right x (utf8Skip (byteAt block x))) hxy,
        continuationsOn_character first rest, Nat.add_assoc]

theorem continuationsOf_loadWord (block : List U8) (x : Nat) :
    continuationsOf (order.loadWord block x) = continuationsOn block x (x + 8) := by
  have hbyte (b : U8) : isContinuation b = (b.getLsbD 7 && !b.getLsbD 6) := by
    revert b
    decide
  have hmarks : ((order.loadWord block x &&& 0x8080808080808080) >>> 7) &&&
      ((~~~order.loadWord block x) >>> 6) =
        marks (fun k => isContinuation (byteAt block (x + order.lane k))) >>> 7 := by
    rw [topBits_eq]
    apply BitVec.eq_of_getLsbD_eq
    intro i hi
    rw [BitVec.getLsbD_and, BitVec.getLsbD_ushiftRight, BitVec.getLsbD_ushiftRight,
      BitVec.getLsbD_ushiftRight, BitVec.getLsbD_and]
    by_cases hword : 7 + i < 64
    · rw [getLsbD_marks hword, getLsbD_marks hword, BitVec.getLsbD_not,
        decide_eq_true (show 6 + i < 64 by omega), Bool.true_and, Bool.true_and]
      by_cases htop : (7 + i) % 8 = 7
      · have hseven : 7 + i = 8 * ((7 + i) / 8) + 7 := by omega
        have hsix : 6 + i = 8 * ((7 + i) / 8) + 6 := by omega
        rw [decide_eq_true htop, Bool.and_true, Bool.and_true, hsix]
        conv_lhs => rw [hseven]
        rw [ByteOrder.loadWord, getLsbD_ofBytes _ (by omega) (by decide),
          getLsbD_ofBytes _ (by omega) (by decide), hbyte]
        rw [← hseven]
      · rw [decide_eq_false htop, Bool.and_false, Bool.and_false, Bool.false_and]
    · rw [BitVec.getLsbD_of_ge _ _ (Nat.not_lt.1 hword), Bool.false_and, Bool.false_and,
        BitVec.getLsbD_of_ge _ _ (Nat.not_lt.1 hword)]
  rw [continuationsOf, hmarks, count_loadWord,
    ByteOrder.countP_lane (fun k => isContinuation (byteAt block (x + k)))]
  exact countOn_word (fun i => isContinuation (byteAt block i)) x

theorem skipWords_spec (hfuel : e ≤ x + n) (hx : x + 8 ≤ e) :
    ∃ y, order.skipWords block e n x c = (y, c + continuationsOn block x y) ∧ x ≤ y ∧ y ≤ e := by
  induction n generalizing x c with
  | zero => omega
  | succ n ih =>
    rw [ByteOrder.skipWords, continuationsOf_loadWord]
    by_cases hmore : x + 16 ≤ e
    · rw [if_pos hmore]
      obtain ⟨y, hrun, hxy, hye⟩ := ih (x := x + 8) (c := c + continuationsOn block x (x + 8))
        (by omega) (by omega)
      refine ⟨y, ?_, by omega, hye⟩
      rw [hrun, continuationsOn_split (Nat.le_add_right x 8) hxy, Nat.add_assoc]
    · rw [if_neg hmore]
      exact ⟨x + 8, rfl, by omega, hx⟩

theorem skipContinuations_eq (hxy : x ≤ y) (hfuel : y ≤ x + n)
    (hover : ∀ i, x ≤ i → i < y → isContinuation (byteAt block i) = true) (hye : y ≤ e)
    (hstop : y = e ∨ isContinuation (byteAt block y) = false) :
    skipContinuations block e n x c = (y, c + continuationsOn block x y) := by
  rw [continuationsOn_all hover]
  induction n generalizing x c with
  | zero =>
    obtain rfl : x = y := by omega
    rw [Nat.sub_self]
    rfl
  | succ n ih =>
    rw [skipContinuations]
    by_cases hx : x = y
    · subst hx
      rw [if_neg, Nat.sub_self]
      · rfl
      · intro hgo
        rcases hstop with rfl | hstop
        · exact Nat.lt_irrefl x hgo.1
        · rw [hstop] at hgo
          cases hgo.2
    · rw [if_pos ⟨by omega, hover x (Nat.le_refl x) (by omega)⟩,
        ih (by omega) (by omega) fun i hi hi' => hover i (by omega) hi']
      rw [show c + 1 + (y - (x + 1)) = c + (y - x) by omega]

theorem utf8Length_eq (order : ByteOrder) (address : Nat) {len : Nat} (h : Spans block 0 y k)
    (hends : EndsAt block y len) :
    order.utf8Length address block len =
      (if worthPerWordLoop address 0 len 12 = none ∧ y ≠ len then y else k, decide (y ≠ len)) := by
  have hlast : y ≤ len ∧ len ≤ y + 12 := by
    have hskip := utf8Skip_range (byteAt block y)
    rcases hends with rfl | ⟨hlt, -, hcut⟩
    · exact ⟨Nat.le_refl y, Nat.le_add_right y 12⟩
    · omega
  rw [ByteOrder.utf8Length]
  cases hworth : worthPerWordLoop address 0 len 12 with
  | none =>
    dsimp only
    rw [countCharacters_eq h hends (by omega)]
    by_cases hcut : y = len
    · rw [if_pos hcut.symm, if_neg fun hand => hand.2 hcut, Nat.zero_add]
      simp [hcut]
    · rw [if_neg (Ne.symm hcut), if_pos ⟨rfl, hcut⟩]
      simp [hcut]
  | some perByteEnd =>
    obtain ⟨-, hlong⟩ := worthPerWordLoop_eq_some hworth
    obtain ⟨s, hhead, -, hps, hover⟩ := skipToWord_spec (p := perByteEnd) (n := len) (c := 0) h
      (by omega) (by omega) (fun i hi hi' => by omega)
    obtain ⟨t, hwords, hpt, htlen⟩ : ∃ t, order.skipWords block (len - 13) len perByteEnd
        (continuationsOn block 0 perByteEnd) = (t, continuationsOn block 0 perByteEnd +
          continuationsOn block perByteEnd t) ∧ perByteEnd ≤ t ∧ t ≤ len - 13 :=
      skipWords_spec (by omega) (by omega)
    obtain ⟨u, b, htu, hrest, hinside⟩ := h.split (p := t) (Nat.zero_le t) (by omega)
    have huy := hrest.le
    have hstop : u = len ∨ isContinuation (byteAt block u) = false := by
      cases hrest with
      | nil => exact hends.imp id fun hcut => hcut.2.1
      | cons first => exact .inr first
    have hback : 0 + continuationsOn block 0 s - (s - perByteEnd) =
        continuationsOn block 0 perByteEnd := by
      rw [continuationsOn_split (Nat.zero_le _) hps, continuationsOn_all hover]
      omega
    have hall : continuationsOn block 0 perByteEnd + continuationsOn block perByteEnd t +
        continuationsOn block t u + continuationsOn block u y = continuationsOn block 0 y := by
      rw [← continuationsOn_split (Nat.zero_le _) hpt, ← continuationsOn_split (Nat.zero_le _) htu,
        ← continuationsOn_split (Nat.zero_le _) huy]
    have hcount := h.continuationsOn
    dsimp only
    rw [hhead]
    dsimp only
    rw [hback, hwords]
    dsimp only
    rw [skipContinuations_eq htu (by omega) hinside (by omega) hstop]
    dsimp only
    rw [skipCharacters_eq hrest hends (by omega), hall,
      show y - continuationsOn block 0 y = k by omega]
    by_cases hcut : y = len
    · rw [if_pos hcut.symm]
      simp [hcut]
    · rw [if_neg (Ne.symm hcut)]
      simp [hcut]

end Loops

theorem encoding_skip (v : CodePoint) :
    ∃ b bs, encoding v = b :: bs ∧ utf8Skip b = bs.length + 1 ∧ isContinuation b = false ∧
      ∀ x ∈ bs, isContinuation x = true := by
  obtain ⟨b, bs, hencoding, hb, hbs⟩ := encoding_form v
  refine ⟨b, bs, hencoding, ?_, hb, hbs⟩
  by_cases hascii : v.val < 0x80
  · have hone : encoding v = [BitVec.ofNat 8 v] := if_pos hascii
    rw [hone] at hencoding
    obtain ⟨rfl, rfl⟩ := List.cons.inj hencoding
    rw [utf8Skip, if_pos]
    · rfl
    · rw [BitVec.toNat_ofNat]
      omega
  · obtain ⟨c, cs, hencoding', hwhole, -⟩ := exists_encoding (Nat.not_lt.1 hascii) v.lt
    rw [hencoding'] at hencoding
    obtain ⟨rfl, rfl⟩ := List.cons.inj hencoding
    exact hwhole.length.symm

theorem byteAt_append (pre : List U8) (c : U8) (rest : List U8) :
    byteAt (pre ++ c :: rest) pre.length = c := by
  rw [byteAt, List.getD_append_right _ _ _ _ (Nat.le_refl _), Nat.sub_self]
  rfl

theorem byteAt_behind (pre cs rest : List U8) {i : Nat} (hi : pre.length ≤ i)
    (hi' : i < pre.length + cs.length) : byteAt (pre ++ (cs ++ rest)) i ∈ cs := by
  rw [byteAt, List.getD_append_right _ _ _ _ hi, List.getD_append _ _ _ _ (by omega),
    List.getD_eq_getElem _ _ (by omega)]
  exact List.getElem_mem _

theorem spans_encodeAll (vs : List CodePoint) (pre post : List U8) :
    Spans (pre ++ (characters.encodeAll vs ++ post)) pre.length
      (pre.length + (characters.encodeAll vs).length) vs.length := by
  induction vs generalizing pre with
  | nil => exact .nil _
  | cons v vs ih =>
    obtain ⟨b, bs, hencoding, hskip, hb, hbs⟩ := encoding_skip v
    have hall : characters.encodeAll (v :: vs) = b :: (bs ++ characters.encodeAll vs) := by
      rw [Framework.Coding.encodeAll_cons]
      exact congrArg (· ++ characters.encodeAll vs) hencoding
    have hfirst : byteAt (pre ++ (characters.encodeAll (v :: vs) ++ post)) pre.length = b := by
      rw [hall]
      exact byteAt_append _ _ _
    have hblock : pre ++ (characters.encodeAll (v :: vs) ++ post) =
        (pre ++ b :: bs) ++ (characters.encodeAll vs ++ post) := by
      rw [hall]
      simp
    have hmore := ih (pre ++ b :: bs)
    rw [← hblock, List.length_append, List.length_cons] at hmore
    refine .cons (by rw [hfirst]; exact hb) ?_ ?_
    · intro i hi hi'
      rw [hfirst, hskip] at hi'
      have hsplit : pre ++ (characters.encodeAll (v :: vs) ++ post) =
          (pre ++ [b]) ++ (bs ++ (characters.encodeAll vs ++ post)) := by
        rw [hblock]
        simp
      rw [hsplit]
      apply hbs
      apply byteAt_behind
      · rw [List.length_append, List.length_singleton]
        exact hi
      · rw [List.length_append, List.length_singleton]
        omega
    · have hlength : pre.length + (characters.encodeAll (v :: vs)).length =
          pre.length + (bs.length + 1) + (characters.encodeAll vs).length := by
        rw [hall, List.length_cons, List.length_append]
        omega
      rw [hfirst, hskip, hlength]
      exact hmore

theorem length_encoding_range (v : CodePoint) :
    1 ≤ (encoding v).length ∧ ((encoding v).length = 1 ↔ v.val < 0x80) := by
  by_cases hascii : v.val < 0x80
  · have hone : encoding v = [BitVec.ofNat 8 v] := if_pos hascii
    rw [hone]
    exact ⟨Nat.le_refl 1, fun _ => hascii, fun _ => rfl⟩
  · obtain ⟨c, cs, hencoding, hwhole, -⟩ := exists_encoding (Nat.not_lt.1 hascii) v.lt
    have hskip : 2 ≤ utf8Skip c := by
      have hfirst := hwhole.first
      rw [utf8Skip]
      split_ifs <;> omega
    have hlength := hwhole.length
    rw [hencoding, List.length_cons]
    omega

theorem length_encodeAll (vs : List CodePoint) :
    vs.length ≤ (characters.encodeAll vs).length ∧
      ((characters.encodeAll vs).length = vs.length ↔ ∀ v ∈ vs, v.val < 0x80) := by
  induction vs with
  | nil => simp
  | cons v vs ih =>
    have hv := length_encoding_range v
    have hall : (characters.encodeAll (v :: vs)).length =
        (encoding v).length + (characters.encodeAll vs).length := by
      rw [Framework.Coding.encodeAll_cons, List.length_append]
      rfl
    rw [hall, List.length_cons, List.forall_mem_cons, ← hv.2, ← ih.2]
    omega

/-- The bytes that a character is cut down to. -/
def Cut (p : List U8) : Prop :=
  ∃ v : CodePoint, p <+: encoding v ∧ p ≠ [] ∧ p.length < (encoding v).length

theorem ends_of_cut {block p : List U8} {len : Nat} (vs : List CodePoint)
    (hlen : len ≤ block.length) (hbytes : block.take len = characters.encodeAll vs ++ p)
    (hp : p = [] ∨ Cut p) : EndsAt block (characters.encodeAll vs).length len := by
  have hlength : len = (characters.encodeAll vs).length + p.length := by
    rw [← List.length_append, ← hbytes, List.length_take, Nat.min_eq_left hlen]
  rcases hp with rfl | ⟨v, hprefix, hne, hshort⟩
  · exact .inl hlength.symm
  · obtain ⟨b, bs, hencoding, hskip, hb, -⟩ := encoding_skip v
    obtain ⟨c, cs, rfl⟩ := List.exists_cons_of_ne_nil hne
    rw [hencoding, List.cons_prefix_cons] at hprefix
    have hfirst : byteAt block (characters.encodeAll vs).length = b := by
      rw [← List.take_append_drop len block, hbytes, List.append_assoc, List.cons_append,
        byteAt_append]
      exact hprefix.1
    rw [hencoding, List.length_cons] at hshort
    rw [List.length_cons] at hlength hshort
    refine .inr ⟨by omega, by rw [hfirst]; exact hb, ?_⟩
    rw [hfirst, hskip]
    omega

def strlen (block : List U8) : Nat := block.findIdx (· = 0)

/-- The scans of a string, on machines of either byte order: the first variant is found, except
that length 0 finds none; the variants are counted; and the characters are, unless the string is
short and cut behind characters above ASCII. -/
theorem scans_iff (order : ByteOrder) (address : Nat) {block : List U8} {len : Nat}
    (hlen : len ≤ block.length) :
    (Scans block 0 (if len = 0 then strlen block else len)
        (order.isUtf8InvariantStringLoc address block len) ↔
      len ≠ 0 ∨ InvariantOn block 0 (strlen block)) ∧
    order.variantUnderUtf8Count address block len =
      (block.take len).countP (fun c => !isInvariant c) ∧
    ∀ vs p, block.take len = characters.encodeAll vs ++ p → p = [] ∨ Cut p →
      ((order.utf8Length address block len).1 = vs.length ↔
        p = [] ∨ (worthPerWordLoop address 0 len 12).isSome ∨ ∀ v ∈ vs, v.val < 0x80) := by
  refine ⟨?_, ?_, ?_⟩
  · rw [ByteOrder.isUtf8InvariantStringLoc_eq]
    have hscan := isUtf8InvariantStringLoc_scans address block len
    by_cases hzero : len = 0
    · subst hzero
      have hnone : isUtf8InvariantStringLoc address block 0 = none := by
        cases hfound : isUtf8InvariantStringLoc address block 0 with
        | none => rfl
        | some v =>
          rw [hfound] at hscan
          exact absurd hscan.2.1 (Nat.not_lt_zero v)
      rw [hnone, if_pos rfl]
      simp [Scans]
    · rw [if_neg hzero]
      exact ⟨fun _ => .inl hzero, fun _ => hscan⟩
  · rw [ByteOrder.variantUnderUtf8Count_eq, variantUnderUtf8Count_eq, variantsOn,
      countOn_eq_countP (fun c => !isInvariant c), stretch_zero hlen]
  · intro vs p hbytes hp
    have hblock : block = [] ++ (characters.encodeAll vs ++ (p ++ block.drop len)) := by
      rw [List.nil_append, ← List.append_assoc, ← hbytes, List.take_append_drop]
    have hspans := spans_encodeAll vs [] (p ++ block.drop len)
    rw [← hblock, List.length_nil, Nat.zero_add] at hspans
    have hcut : (characters.encodeAll vs).length = len ↔ p = [] := by
      rw [← List.length_eq_zero_iff]
      have hlength := congrArg List.length hbytes
      rw [List.length_take, Nat.min_eq_left hlen, List.length_append] at hlength
      omega
    have hascii := length_encodeAll vs
    rw [utf8Length_eq order address hspans (ends_of_cut vs hlen hbytes hp)]
    dsimp only
    cases worthPerWordLoop address 0 len 12 with
    | some perByteEnd => simp
    | none =>
      by_cases hwhole : p = []
      · simp [hcut.2 hwhole, hwhole]
      · simp [mt hcut.1 hwhole, hwhole, hascii.2]

theorem cut_c2 : Cut [0xC2] := ⟨⟨0x80, by decide⟩, by decide, by decide, by decide⟩

/-- A whole character and the start of another. -/
theorem scans_two :
    (Scans [0x61, 0xC2] 0 2 (ByteOrder.little.isUtf8InvariantStringLoc 0 [0x61, 0xC2] 2)) ∧
      ByteOrder.little.variantUnderUtf8Count 0 [0x61, 0xC2] 2 = 1 ∧
      (ByteOrder.little.utf8Length 0 [0x61, 0xC2] 2).1 = 1 := by
  have hscans := scans_iff .little 0 (show 2 ≤ ([0x61, 0xC2] : List U8).length by decide)
  refine ⟨hscans.1.2 (.inl (by decide)), hscans.2.1, ?_⟩
  have hbytes : ([0x61, 0xC2] : List U8).take 2 =
      characters.encodeAll [⟨0x61, by decide⟩] ++ [0xC2] := by decide
  exact (hscans.2.2 _ _ hbytes (.inr cut_c2)).2 (.inr (.inr (by simp)))

/-- Length 0 finds no variant before the NUL, and a short string that is cut has bytes for
characters. -/
theorem scans_fail :
    ¬ Scans [0xE9, 0] 0 (strlen [0xE9, 0])
        (ByteOrder.little.isUtf8InvariantStringLoc 0 [0xE9, 0] 0) ∧
      [0xC2, 0x80, 0xC2] = characters.encodeAll [⟨0x80, by decide⟩] ++ [0xC2] ∧ Cut [0xC2] ∧
      ByteOrder.little.utf8Length 0 [0xC2, 0x80, 0xC2] 3 = (2, true) := by
  refine ⟨?_, by decide, cut_c2, by decide⟩
  intro hscan
  have hfirst := hscan 0 (Nat.le_refl 0) (by decide)
  cases hfirst

end XPerl.Utf8
