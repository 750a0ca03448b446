import XPerl.StringOps.Strings

/-! The bitwise operators on strings. -/

namespace XPerl.StringOps

open XPerl.Utf8 XPerl.Framework.Lanes

/-- `OP_BIT_AND`, `OP_BIT_XOR` and `OP_BIT_OR` -/
inductive BitOp where
  | and
  | xor
  | or
deriving DecidableEq

def BitOp.apply {w : Nat} (op : BitOp) (a b : BitVec w) : BitVec w :=
  match op with
  | .and => a &&& b
  | .xor => a ^^^ b
  | .or => a ||| b

/-- The error for an operand with a character above FF names the operator. -/
structure WideCharacterNotBytes where
  op : BitOp
deriving DecidableEq

section Loops

/-- Where an operand's bytes are: in the target's buffer, or in a block of their own. -/
structure Source where
  inTarget : Bool
  address : Nat
  block : List U8

def Source.memory (src : Source) (dst : List U8) :
    List U8 := if src.inTarget then dst else src.block

def storeWord (dst : List U8) (i : Nat) (word : BitVec 64) : List U8 :=
  (List.range 8).foldl (fun dst k => dst.set (i + k) (word.extractLsb' (8 * k) 8)) dst

variable (op : BitOp) (l r : Source)

def wordStep (dst : List U8) (i : Nat) : List U8 :=
  storeWord dst i (op.apply (loadWord (l.memory dst) i) (loadWord (r.memory dst) i))

def wordLoop : Nat → Nat → List U8 → List U8
  | 0, _, dst => dst
  | n + 1, i, dst =>
    let dst := wordStep op l r dst i
    let dst := wordStep op l r dst (i + 8)
    let dst := wordStep op l r dst (i + 16)
    let dst := wordStep op l r dst (i + 24)
    wordLoop n (i + 32) dst

def byteLoop : Nat → Nat → List U8 → List U8
  | 0, _, dst => dst
  | n + 1, i, dst =>
    byteLoop n (i + 1) (dst.set i (op.apply (byteAt (l.memory dst) i) (byteAt (r.memory dst) i)))

/-- The loops of `do_vop`, for a target at an address. -/
def loops (address len : Nat) (dst : List U8) : List U8 :=
  if 32 ≤ len ∧ address % 8 = 0 ∧ l.address % 8 = 0 ∧ r.address % 8 = 0 then
    byteLoop op l r (len % 32) (len / 32 * 32) (wordLoop op l r (len / 32) 0 dst)
  else byteLoop op l r len 0 dst

end Loops

/-- What the result is written to: a string of its own with whatever its buffer holds, or the left
operand, with whatever its buffer holds behind the NUL. -/
inductive Target where
  | other (address : Nat) (buffer : List U8)
  | left (spare : List U8)

def Target.isLeft : Target → Bool
  | .other _ _ => false
  | .left _ => true

/-- Where new memory is, and what it holds. -/
structure Places where
  leftTemp : Nat
  rightTemp : Nat
  grown : Nat
  result : Nat
  junk : U8

/-- An operand's bytes and how many they are, of a UTF-8 string those of its downgraded temporary. -/
def operand (junk : U8) (temp : Nat) (inTarget : Bool) (sv : Sv) : Option (Source × Nat) :=
  if sv.utf8 then
    let r := utf8ToBytes .useTemporary junk sv.address (sv.bytes ++ [0]) sv.bytes.length
    if r.converted then
      match r.moved with
      | some block => some (⟨false, temp, block⟩, r.length)
      | none => some (⟨inTarget, sv.address, r.input⟩, r.length)
    else none
  else some (⟨inTarget, sv.address, sv.bytes ++ [0]⟩, sv.bytes.length)

def memzero (buffer : List U8) (i n : Nat) : List U8 :=
  buffer.take i ++ List.replicate n 0 ++ buffer.drop (i + n)

/-- The target's address and buffer, with room for so many bytes and a NUL. -/
def targetBuffer (places : Places) (target : Target) (left : Sv) (len : Nat) : Nat × List U8 :=
  let (address, buffer, cur) :=
    match target with
    -- `SvPVCLEAR` empties the string and keeps the buffer.
    | .other address buffer => (address, buffer, 0)
    | .left spare => (left.address, left.bytes ++ [0] ++ spare, left.bytes.length)
  if buffer.length < len + 1 then
    let buffer := buffer ++ List.replicate (len + 1 - buffer.length) places.junk
    (places.grown, memzero buffer cur (len - cur + 1))
  else (address, buffer)

def catpvn (dst : List U8) (len : Nat) (src : Source) (n : Nat) : List U8 :=
  dst.take len ++ ((src.memory dst).drop len).take (n - len)

def mopUp (dst : List U8) (l : Source) (leftlen : Nat) (r : Source) (rightlen len : Nat) :
    List U8 :=
  if len < rightlen then
    if r.inTarget then dst.take rightlen else catpvn dst len r rightlen
  else if len < leftlen then
    if l.inTarget then dst.take leftlen else catpvn dst len l leftlen
  else dst.take len

def result (op : BitOp) (dst : List U8) (l : Source) (leftlen : Nat) (r : Source)
    (rightlen len : Nat) : List U8 :=
  match op with
  | .and => dst.take len
  | .xor => mopUp dst l leftlen r rightlen len
  | .or => mopUp dst l leftlen r rightlen len

/-- `do_vop`; the right operand may be the same string as the left one. -/
def doVop (op : BitOp) (places : Places) (target : Target) (left : Sv) (right : Option Sv) :
    Except WideCharacterNotBytes Sv :=
  let resultNeedsToBeUtf8 := left.utf8 || (right.getD left).utf8
  match operand places.junk places.leftTemp target.isLeft left,
      operand places.junk places.rightTemp (target.isLeft && right.isNone) (right.getD left) with
  | some (l, leftlen), some (r, rightlen) =>
    let len := min leftlen rightlen
    let (address, dst) := targetBuffer places target left len
    let dst := loops op l r address len dst
    let sv := ⟨places.result, result op dst l leftlen r rightlen len, false⟩
    .ok (if resultNeedsToBeUtf8 then svUtf8Upgrade places.junk sv else sv)
  | _, _ => .error ⟨op⟩

section Done

variable {op : BitOp} {l r src : Source} {start dst : List U8} {i j k n : Nat}

/-- The first bytes of a buffer have been worked on. -/
structure Done (op : BitOp) (l r : Source) (start : List U8) (k : Nat) (dst : List U8) : Prop where
  length : dst.length = start.length
  bytes : ∀ i, byteAt dst i =
    if i < k then op.apply (byteAt (l.memory start) i) (byteAt (r.memory start) i)
    else byteAt start i

theorem Done.refl : Done op l r start 0 start := ⟨rfl, fun i => (if_neg (Nat.not_lt_zero i)).symm⟩

theorem Done.unread (h : Done op l r start k dst) (src : Source) (hi : k ≤ i) :
    byteAt (src.memory dst) i = byteAt (src.memory start) i := by
  rw [Source.memory, Source.memory]
  cases src.inTarget with
  | false => rfl
  | true =>
    rw [if_pos rfl, if_pos rfl, h.bytes, if_neg (Nat.not_lt.2 hi)]

theorem byteAt_set_self (s : List U8) (c : U8) (h : i < s.length) : byteAt (s.set i c) i = c := by
  rw [byteAt, List.getD_eq_getElem?_getD, List.getElem?_set_self h]
  rfl

theorem Done.extend (h : Done op l r start k dst) {dst' : List U8}
    (hlength : dst'.length = dst.length)
    (hnew : ∀ i, k ≤ i → i < k + n → byteAt dst' i =
      op.apply (byteAt (l.memory dst) i) (byteAt (r.memory dst) i))
    (hold : ∀ i, i < k ∨ k + n ≤ i → byteAt dst' i = byteAt dst i) :
    Done op l r start (k + n) dst' := by
  refine ⟨hlength.trans h.length, fun i => ?_⟩
  by_cases hin : k ≤ i ∧ i < k + n
  · rw [hnew i hin.1 hin.2, h.unread l hin.1, h.unread r hin.1, if_pos hin.2]
  · rw [hold i (by omega), h.bytes]
    by_cases hi : i < k
    · rw [if_pos hi, if_pos (by omega)]
    · rw [if_neg hi, if_neg (by omega)]

theorem Done.byte (h : Done op l r start k dst) (hk : k < start.length) :
    Done op l r start (k + 1)
      (dst.set k (op.apply (byteAt (l.memory dst) k) (byteAt (r.memory dst) k))) := by
  apply h.extend List.length_set
  · intro i hi hi'
    obtain rfl : i = k := by omega
    rw [byteAt_set_self _ _ (h.length ▸ hk)]
  · intro i hi
    rw [byteAt_set_ne _ _ (by omega)]

theorem byteLoop_done (h : Done op l r start k dst) (hk : k + n ≤ start.length) :
    Done op l r start (k + n) (byteLoop op l r n k dst) := by
  induction n generalizing k dst with
  | zero => exact h
  | succ n ih =>
    rw [byteLoop, Nat.add_comm n 1, ← Nat.add_assoc]
    exact ih (h.byte (by omega)) (by omega)

theorem storeWord_spec {word : BitVec 64} (hk : k + 8 ≤ dst.length) :
    (storeWord dst k word).length = dst.length ∧
      ∀ i, byteAt (storeWord dst k word) i =
        if k ≤ i ∧ i < k + 8 then word.extractLsb' (8 * (i - k)) 8 else byteAt dst i := by
  have hrange (n : Nat) (hn : n ≤ 8) :
      ((List.range n).foldl (fun dst j => dst.set (k + j) (word.extractLsb' (8 * j) 8))
          dst).length = dst.length ∧
        ∀ i, byteAt ((List.range n).foldl
            (fun dst j => dst.set (k + j) (word.extractLsb' (8 * j) 8)) dst) i =
          if k ≤ i ∧ i < k + n then word.extractLsb' (8 * (i - k)) 8 else byteAt dst i := by
    induction n with
    | zero => exact ⟨rfl, fun i => (if_neg (by omega)).symm⟩
    | succ n ih =>
      obtain ⟨hlength, hbytes⟩ := ih (by omega)
      rw [List.range_succ, List.foldl_append]
      refine ⟨List.length_set.trans hlength, fun i => ?_⟩
      by_cases hi : i = k + n
      · subst hi
        rw [if_pos (by omega), Nat.add_sub_cancel_left]
        exact byteAt_set_self _ _ (by omega)
      · refine (byteAt_set_ne _ _ (Ne.symm hi)).trans ((hbytes i).trans ?_)
        by_cases hin : k ≤ i ∧ i < k + n
        · rw [if_pos hin, if_pos (by omega)]
        · rw [if_neg hin, if_neg (by omega)]
  exact hrange 8 (Nat.le_refl 8)

theorem extract_apply (op : BitOp) (a b : Nat → U8) (hj : j < 8) :
    (op.apply (ofBytes a) (ofBytes b)).extractLsb' (8 * j) 8 = op.apply (a j) (b j) := by
  apply BitVec.eq_of_getLsbD_eq
  intro i hi
  rw [BitVec.getLsbD_extractLsb', decide_eq_true hi, Bool.true_and]
  cases op with
  | and =>
    simp only [BitOp.apply]
    rw [BitVec.getLsbD_and, BitVec.getLsbD_and, getLsbD_ofBytes a hj hi, getLsbD_ofBytes b hj hi]
  | xor =>
    simp only [BitOp.apply]
    rw [BitVec.getLsbD_xor, BitVec.getLsbD_xor, getLsbD_ofBytes a hj hi, getLsbD_ofBytes b hj hi]
  | or =>
    simp only [BitOp.apply]
    rw [BitVec.getLsbD_or, BitVec.getLsbD_or, getLsbD_ofBytes a hj hi, getLsbD_ofBytes b hj hi]

theorem Done.word (h : Done op l r start k dst) (hk : k + 8 ≤ start.length) :
    Done op l r start (k + 8) (wordStep op l r dst k) := by
  rw [wordStep]
  have hroom : k + 8 ≤ dst.length := h.length ▸ hk
  obtain ⟨hlength, hbytes⟩ := storeWord_spec hroom
  apply h.extend hlength
  · intro i hi hi'
    rw [hbytes, if_pos ⟨hi, hi'⟩, loadWord, loadWord, extract_apply op _ _ (by omega),
      Nat.add_sub_cancel' hi]
  · intro i hi
    rw [hbytes, if_neg (by omega)]

theorem wordLoop_done (h : Done op l r start k dst) (hk : k + 32 * n ≤ start.length) :
    Done op l r start (k + 32 * n) (wordLoop op l r n k dst) := by
  induction n generalizing k dst with
  | zero => exact h
  | succ n ih =>
    have hstep := (((h.word (by omega)).word (by omega)).word (by omega)).word (by omega)
    have hrest := ih hstep (by omega)
    rw [wordLoop, show k + 32 * (n + 1) = k + 8 + 8 + 8 + 8 + 32 * n by omega]
    exact hrest

theorem loops_done (address : Nat) (hn : n ≤ start.length) :
    Done op l r start n (loops op l r address n start) := by
  have hstart : Done op l r start 0 start := Done.refl
  rw [loops]
  split
  · have hwords := wordLoop_done (n := n / 32) hstart (by omega)
    rw [Nat.zero_add, Nat.mul_comm] at hwords
    have hbytes := byteLoop_done (n := n % 32) hwords (by omega)
    rw [show n / 32 * 32 + n % 32 = n by omega] at hbytes
    exact hbytes
  · have hbytes := byteLoop_done (n := n) hstart (by omega)
    rw [Nat.zero_add] at hbytes
    exact hbytes

end Done

section Operands

variable {sv left : Sv} {chars xs ys dst : List U8} {len : Nat}

/-- Where an operand's characters are read from. -/
structure Reads (inTarget : Bool) (sv : Sv) (chars : List U8) (src : Source) : Prop where
  target : src.inTarget = true → inTarget = true
  fits : chars.length ≤ sv.bytes.length
  block : src.inTarget = false → src.block.take chars.length = chars
  own : src.inTarget = true → sv.bytes.take chars.length = chars

theorem operand_some (junk : U8) (temp : Nat) (inTarget : Bool) (h : sv.Holds chars) :
    ∃ src, operand junk temp inTarget sv = some (src, chars.length) ∧
      Reads inTarget sv chars src := by
  obtain ⟨address, bytes, utf8⟩ := sv
  cases utf8 with
  | false =>
    obtain rfl : bytes = chars := h
    refine ⟨_, rfl, fun htarget => htarget, Nat.le_refl _, fun _ => ?_, fun _ => List.take_length⟩
    exact List.take_left' rfl
  | true =>
    obtain rfl : bytes = upgrade chars := h
    have hbytes : (upgrade chars ++ [0]).take (upgrade chars).length = upgrade chars :=
      List.take_left' rfl
    have hdown := utf8ToBytes_downgraded .useTemporary junk address
      (show (upgrade chars).length ≤ (upgrade chars ++ [0]).length by simp)
    obtain ⟨hlength, -, htake⟩ := hdown.result chars hbytes
    have hinput := hdown.untouched (.inl (by decide))
    have hfits : chars.length ≤ (upgrade chars).length := by
      rw [length_upgrade]
      exact Nat.le_add_right _ _
    rw [operand, if_pos rfl]
    dsimp only
    rw [if_pos (hdown.converts.2 ⟨chars, hbytes⟩), hlength]
    rw [hlength, Outcome.memory] at htake
    cases hmoved : (utf8ToBytes .useTemporary junk address (upgrade chars ++ [0])
        (upgrade chars).length).moved with
    | some block =>
      rw [hmoved] at htake
      exact ⟨_, rfl, (fun hfalse => by cases hfalse), hfits, (fun _ => htake),
        (fun hfalse => by cases hfalse)⟩
    | none =>
      rw [hmoved, hinput, Option.getD_none] at htake
      refine ⟨_, rfl, fun htarget => htarget, hfits, fun _ => ?_, fun _ => ?_⟩
      · rw [hinput]
        exact htake
      · have hbehind : (upgrade chars ++ [0]).take chars.length = (upgrade chars).take chars.length :=
          List.take_append_of_le_length hfits
        rw [← hbehind]
        exact htake

theorem operand_none (junk : U8) (temp : Nat) (inTarget : Bool) (hutf8 : sv.utf8 = true)
    (hwide : ¬ ∃ chars, sv.bytes = upgrade chars) : operand junk temp inTarget sv = none := by
  have hbytes : (sv.bytes ++ [0]).take sv.bytes.length = sv.bytes := List.take_left' rfl
  have hdown := utf8ToBytes_downgraded .useTemporary junk sv.address
    (show sv.bytes.length ≤ (sv.bytes ++ [0]).length by simp)
  have hno := hdown.converts
  rw [hbytes] at hno
  rw [operand, if_pos hutf8]
  dsimp only
  rw [if_neg (mt hno.1 hwide)]

theorem targetBuffer_spec (places : Places) (target : Target)
    (hlen : target.isLeft = true → len ≤ left.bytes.length) :
    len < (targetBuffer places target left len).2.length ∧
      (target.isLeft = true → left.bytes <+: (targetBuffer places target left len).2) := by
  cases target with
  | other address buffer =>
    refine ⟨?_, fun hfalse => by cases hfalse⟩
    rw [targetBuffer]
    dsimp only
    split
    · simp only [memzero, List.length_append, List.length_take, List.length_replicate,
        List.length_drop]
      omega
    · dsimp only
      omega
  | left spare =>
    have hfits : ¬ (left.bytes ++ [0] ++ spare).length < len + 1 := by
      have hle := hlen rfl
      simp only [List.length_append, List.length_singleton]
      omega
    rw [targetBuffer]
    dsimp only
    rw [if_neg hfits]
    refine ⟨Nat.lt_of_succ_le (Nat.not_lt.1 hfits), fun _ => ?_⟩
    rw [List.append_assoc]
    exact List.prefix_append _ _

theorem take_of_prefix {bytes : List U8} {n : Nat} (h : bytes <+: dst) (hn : n ≤ bytes.length) :
    dst.take n = bytes.take n := by
  obtain ⟨rest, rfl⟩ := h
  exact List.take_append_of_le_length hn

theorem byteAt_of_take {block : List U8} {i : Nat} (h : block.take xs.length = xs)
    (hi : i < xs.length) : byteAt block i = xs[i] := by
  have hle : xs.length ≤ block.length := by
    have hlength := congrArg List.length h
    rw [List.length_take] at hlength
    omega
  have hget : (block.take xs.length).getD i 0 = xs[i] := by
    rw [h, List.getD_eq_getElem _ _ hi]
  rw [List.getD_eq_getElem _ _ (by rw [List.length_take]; omega), List.getElem_take] at hget
  rw [byteAt, List.getD_eq_getElem _ _ (by omega), hget]

end Operands

section Results

variable {op : BitOp} {l r : Source} {sv left : Sv} {right : Option Sv}
  {xs ys start dst : List U8} {len : Nat}

/-- The operator on strings of characters below 256. -/
def BitOp.onStrings (op : BitOp) (xs ys : List U8) : List U8 :=
  List.zipWith op.apply xs ys ++
    if op = .and then [] else xs.drop ys.length ++ ys.drop xs.length

theorem take_done (h : Done op l r start (min xs.length ys.length) dst)
    (hl : (l.memory start).take xs.length = xs) (hr : (r.memory start).take ys.length = ys)
    (hroom : min xs.length ys.length ≤ start.length) :
    dst.take (min xs.length ys.length) = List.zipWith op.apply xs ys := by
  apply List.ext_getElem
  · rw [List.length_take, List.length_zipWith, h.length]
    omega
  · intro i hi hi'
    rw [List.length_zipWith] at hi'
    have hlength := h.length
    rw [List.getElem_take, List.getElem_zipWith, ← byteAt_of_take hl (by omega),
      ← byteAt_of_take hr (by omega)]
    have hbyte := h.bytes i
    rw [if_pos hi', byteAt, List.getD_eq_getElem _ _ (by omega)] at hbyte
    exact hbyte

theorem drop_done (h : Done op l r start len dst) (hle : len ≤ xs.length)
    (hx : start.take xs.length = xs) : dst.take xs.length = dst.take len ++ xs.drop len := by
  have hfits : xs.length ≤ start.length := by
    have hlength := congrArg List.length hx
    rw [List.length_take] at hlength
    omega
  have hlength := h.length
  apply List.ext_getElem
  · rw [List.length_take, List.length_append, List.length_take, List.length_drop]
    omega
  · intro i hi hi'
    rw [List.length_take] at hi
    rw [List.getElem_take, List.getElem_append]
    split
    · rw [List.getElem_take]
    · rename_i hbehind
      rw [List.length_take] at hbehind
      have hbyte := h.bytes i
      rw [if_neg (by omega), byteAt_of_take hx (by omega), byteAt,
        List.getD_eq_getElem _ _ (by omega)] at hbyte
      rw [hbyte, List.getElem_drop]
      congr 1
      rw [List.length_take]
      omega

theorem catpvn_eq {src : Source} {zs : List U8} (htarget : src.inTarget = false)
    (hz : src.block.take zs.length = zs) :
    catpvn dst len src zs.length = dst.take len ++ zs.drop len := by
  have hmemory : src.memory dst = src.block := by
    rw [Source.memory, htarget]
    rfl
  rw [catpvn, hmemory, ← List.drop_take, hz]

theorem Sv.Holds.unique {sv : Sv} (h : sv.Holds xs) (h' : sv.Holds ys) : xs = ys := by
  rw [Sv.Holds] at h h'
  cases hutf8 : sv.utf8 with
  | false =>
    rw [hutf8] at h h'
    exact h.symm.trans h'
  | true =>
    rw [hutf8] at h h'
    exact upgrade_injective (h.symm.trans h')

theorem mopUp_eq (hdone : Done op l r start (min xs.length ys.length) dst)
    (hl : (l.memory start).take xs.length = xs) (hr : (r.memory start).take ys.length = ys)
    (hsame : r.inTarget = true → xs = ys)
    (hroom : min xs.length ys.length ≤ start.length) :
    mopUp dst l xs.length r ys.length (min xs.length ys.length) =
      List.zipWith op.apply xs ys ++ (xs.drop ys.length ++ ys.drop xs.length) := by
  have htake := take_done hdone hl hr hroom
  rw [mopUp]
  by_cases hright : min xs.length ys.length < ys.length
  · have hmin : min xs.length ys.length = xs.length := by omega
    have hother : r.inTarget = false := by
      cases htarget : r.inTarget with
      | false => rfl
      | true =>
        rw [hsame htarget] at hright
        omega
    have hblock : r.block.take ys.length = ys := by
      rw [Source.memory, hother] at hr
      exact hr
    rw [if_pos hright, if_neg (by rw [hother]; simp), catpvn_eq hother hblock, htake, hmin,
      List.drop_eq_nil_of_le (show xs.length ≤ ys.length by omega), List.nil_append]
  · rw [if_neg hright]
    have hmin : min xs.length ys.length = ys.length := by omega
    rw [List.drop_eq_nil_of_le (show ys.length ≤ xs.length by omega), List.append_nil]
    by_cases hleft : min xs.length ys.length < xs.length
    · rw [if_pos hleft]
      cases htarget : l.inTarget with
      | true =>
        rw [Source.memory, htarget] at hl
        rw [if_pos rfl, drop_done hdone (Nat.min_le_left _ _) hl, htake, hmin]
      | false =>
        rw [Source.memory, htarget] at hl
        rw [if_neg (by simp), catpvn_eq htarget hl, htake, hmin]
    · rw [if_neg hleft, htake, List.drop_eq_nil_of_le (show xs.length ≤ ys.length by omega),
        List.append_nil]

theorem doVop_chars (op : BitOp) (places : Places) (target : Target) (hl : left.Holds xs)
    (hr : (right.getD left).Holds ys) :
    ∃ sv, doVop op places target left right = .ok sv ∧ sv.Holds (op.onStrings xs ys) ∧
      sv.utf8 = (left.utf8 || (right.getD left).utf8) := by
  obtain ⟨l, hleft, lreads⟩ := operand_some places.junk places.leftTemp target.isLeft hl
  obtain ⟨r, hright, rreads⟩ := operand_some places.junk places.rightTemp
    (target.isLeft && right.isNone) hr
  have hlen := lreads.fits
  have hmin (_ : target.isLeft = true) : min xs.length ys.length ≤ left.bytes.length := by omega
  obtain ⟨hroom, hown⟩ := targetBuffer_spec places target hmin
  rw [doVop, hleft, hright]
  dsimp only
  generalize targetBuffer places target left (min xs.length ys.length) = buffer at hroom hown ⊢
  obtain ⟨address, start⟩ := buffer
  have hlmem : (l.memory start).take xs.length = xs := by
    rw [Source.memory]
    cases htarget : l.inTarget with
    | false => exact lreads.block htarget
    | true =>
      rw [if_pos rfl, take_of_prefix (hown (lreads.target htarget)) lreads.fits]
      exact lreads.own htarget
  have hself (htarget : r.inTarget = true) : target.isLeft = true ∧ right = none := by
    have hand := rreads.target htarget
    rw [Bool.and_eq_true, Option.isNone_iff_eq_none] at hand
    exact hand
  have hsame (htarget : r.inTarget = true) : xs = ys := by
    obtain ⟨-, hnone⟩ := hself htarget
    subst hnone
    exact hl.unique hr
  have hrmem : (r.memory start).take ys.length = ys := by
    rw [Source.memory]
    cases htarget : r.inTarget with
    | false => exact rreads.block htarget
    | true =>
      obtain ⟨hisLeft, hnone⟩ := hself htarget
      subst hnone
      rw [if_pos rfl, take_of_prefix (hown hisLeft) rreads.fits]
      exact rreads.own htarget
  have hdone : Done op l r start (min xs.length ys.length)
      (loops op l r address (min xs.length ys.length) start) :=
    loops_done address (Nat.le_of_lt hroom)
  have htake := take_done hdone hlmem hrmem (Nat.le_of_lt hroom)
  have hmop := mopUp_eq hdone hlmem hrmem hsame (Nat.le_of_lt hroom)
  dsimp only
  generalize loops op l r address (min xs.length ys.length) start = dst at htake hmop ⊢
  have hbytes : result op dst l xs.length r ys.length (min xs.length ys.length) =
      op.onStrings xs ys := by
    cases op with
    | and => rw [result, BitOp.onStrings, if_pos rfl, List.append_nil, htake]
    | xor => rw [result, BitOp.onStrings, if_neg (by decide), hmop]
    | or => rw [result, BitOp.onStrings, if_neg (by decide), hmop]
  rw [hbytes]
  cases hutf8 : (left.utf8 || (right.getD left).utf8) with
  | false => exact ⟨_, rfl, rfl, rfl⟩
  | true =>
    have hup : (svUtf8Upgrade places.junk ⟨places.result, op.onStrings xs ys, false⟩).Holds
        (op.onStrings xs ys) ∧ _ := svUtf8Upgrade_holds places.junk rfl rfl
    exact ⟨_, rfl, hup⟩

/-- A string's text, which its bytes encode, or which they are. -/
def Sv.Text (sv : Sv) (vs : List CodePoint) : Prop :=
  if sv.utf8 then sv.bytes = characters.encodeAll vs else vs = sv.bytes.map ofByte

def toByte (v : CodePoint) : U8 := BitVec.ofNat 8 v.val

variable {v : CodePoint} {vs : List CodePoint}

theorem ofByte_toByte (h : v.val < 256) : ofByte (toByte v) = v := by
  apply Fin.ext
  show (BitVec.ofNat 8 v.val).toNat = v.val
  rw [BitVec.toNat_ofNat, Nat.mod_eq_of_lt h]

theorem toByte_ofByte (c : U8) : toByte (ofByte c) = c := BitVec.ofNat_toNat 8 c

theorem map_ofByte_toByte (h : ∀ v ∈ vs, v.val < 256) :
    (vs.map toByte).map ofByte = vs := by
  rw [List.map_map]
  conv_rhs => rw [← List.map_id vs]
  exact List.map_congr_left fun v hv => ofByte_toByte (h v hv)

theorem Sv.Text.holds (h : sv.Text vs) (hbytes : ∀ v ∈ vs, v.val < 256) :
    sv.Holds (vs.map toByte) := by
  rw [Sv.Text] at h
  rw [Sv.Holds]
  cases hutf8 : sv.utf8 with
  | true =>
    rw [hutf8, if_pos rfl] at h
    rw [if_pos rfl, upgrade_eq, map_ofByte_toByte hbytes, h]
  | false =>
    rw [hutf8, if_neg (by simp)] at h
    rw [if_neg (by simp), h, List.map_map]
    conv_lhs => rw [← List.map_id sv.bytes]
    exact List.map_congr_left fun c _ => (toByte_ofByte c).symm

theorem Sv.Holds.text (h : sv.Holds xs) : sv.Text (xs.map ofByte) := by
  rw [Sv.Holds] at h
  rw [Sv.Text]
  cases hutf8 : sv.utf8 with
  | true =>
    rw [hutf8, if_pos rfl, upgrade_eq] at h
    exact h
  | false =>
    rw [hutf8, if_neg (by simp)] at h
    rw [if_neg (by simp), h]

theorem Sv.Text.wide (h : sv.Text vs) (hv : v ∈ vs)
    (hwide : 256 ≤ v.val) : sv.utf8 = true ∧ ¬ ∃ chars, sv.bytes = upgrade chars := by
  have hnone (chars : List U8) (hchars : vs = chars.map ofByte) : False := by
    rw [hchars] at hv
    obtain ⟨c, -, rfl⟩ := List.mem_map.1 hv
    have hlt : (ofByte c).val < 256 := c.isLt
    omega
  rw [Sv.Text] at h
  cases hutf8 : sv.utf8 with
  | false =>
    rw [hutf8, if_neg (by simp)] at h
    exact absurd h (hnone _)
  | true =>
    rw [hutf8, if_pos rfl] at h
    refine ⟨rfl, fun hex => ?_⟩
    obtain ⟨chars, hchars⟩ := hex
    rw [h, upgrade_eq] at hchars
    exact hnone chars (characters.encodeAll_injective hchars)

/-- `do_vop` is the characterwise operator on operands with characters below 256, and refuses the
others. -/
theorem doVop_bytewise (op : BitOp) (places : Places) (target : Target) {vs ws : List CodePoint}
    (hl : left.Text vs) (hr : (right.getD left).Text ws) :
    ((∀ v ∈ vs ++ ws, v.val < 256) →
      ∃ sv, doVop op places target left right = .ok sv ∧
        sv.Text ((op.onStrings (vs.map toByte) (ws.map toByte)).map ofByte) ∧
        sv.utf8 = (left.utf8 || (right.getD left).utf8)) ∧
    ((∃ v ∈ vs ++ ws, 256 ≤ v.val) →
      doVop op places target left right = .error ⟨op⟩) := by
  constructor
  · intro hbytes
    have hv : ∀ v ∈ vs, v.val < 256 := fun v hv => hbytes v (List.mem_append_left _ hv)
    have hw : ∀ v ∈ ws, v.val < 256 := fun v hv => hbytes v (List.mem_append_right _ hv)
    obtain ⟨sv, hrun, hholds, hutf8⟩ := doVop_chars op places target (hl.holds hv) (hr.holds hw)
    exact ⟨sv, hrun, hholds.text, hutf8⟩
  · intro hex
    obtain ⟨v, hv, hwide⟩ := hex
    rw [doVop]
    rcases List.mem_append.1 hv with hleft | hright
    · obtain ⟨hutf8, hno⟩ := hl.wide hleft hwide
      rw [operand_none _ _ _ hutf8 hno]
    · obtain ⟨hutf8, hno⟩ := hr.wide hright hwide
      rw [operand_none _ _ (target.isLeft && right.isNone) hutf8 hno]
      cases operand places.junk places.leftTemp target.isLeft left <;> rfl

/-- `"é" ^ "aé"` on a UTF-8 left operand that is overwritten. -/
theorem doVop_bytewise_pair :
    ∃ sv, doVop .xor ⟨64, 128, 256, 512, 0xFF⟩ (.left [1, 2]) ⟨0, [0xC3, 0xA9], true⟩
        (some ⟨8, [0x61, 0xE9], false⟩) = .ok sv ∧
      sv.Text ([0x88, 0xE9].map ofByte) ∧ sv.utf8 = true := by
  have hpair := (doVop_bytewise .xor ⟨64, 128, 256, 512, 0xFF⟩ (.left [1, 2])
    (show Sv.Text ⟨0, [0xC3, 0xA9], true⟩ [ofByte 0xE9] by
      show [0xC3, 0xA9] = characters.encodeAll [ofByte 0xE9]
      decide)
    (show Sv.Text ((some ⟨8, [0x61, 0xE9], false⟩ : Option Sv).getD ⟨0, [0xC3, 0xA9], true⟩)
      ([0x61, 0xE9].map ofByte) from rfl)).1 (by simp [ofByte])
  exact hpair

end Results

end XPerl.StringOps
