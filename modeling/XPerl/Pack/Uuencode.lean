import XPerl.Pack.Compressed
import XPerl.Utf8.Decoding
import XPerl.Utf8.Lengths

/-! Uuencoding: six bits to a character, with the length of a line at its start. -/

namespace XPerl.Pack

open XPerl.Utf8 (ByteOrder U32 maxLegalCP ofByte upgrade utf8ToUvMsgs)

variable {a b c x : U8} {s t rest bytes g : List U8} {n v len count fromlen : Nat}

def uuemap : List U8 := 0x60 :: (List.range' 0x21 63).map (BitVec.ofNat 8)

/-- `PL_uudmap`: a blank decodes as the character for zero does. -/
def uudmap : List Nat :=
  (uuemap.zipIdx.foldl (fun map p => map.set p.1.toNat p.2) (List.replicate 256 0)).set 0x20 0

def uue (v : U8) : U8 := uuemap.getD v.toNat 0

def uud (c : U8) : U8 := BitVec.ofNat 8 (uudmap.getD c.toNat 0) &&& 0o77

def isUuchar (c : U8) : Bool := 0x20 ≤ c.toNat && c.toNat < 0x61

/-- What `doencodes` writes between the length and the end of a line. -/
def doencodesLoop : List U8 → List U8
  | a :: b :: c :: s =>
    uue ((0o77 : U8) &&& a >>> 2) ::
      uue ((0o77 : U8) &&& ((a <<< 4 &&& (0o60 : U8)) ||| (b >>> 4 &&& (0o17 : U8)))) ::
      uue ((0o77 : U8) &&& ((b <<< 2 &&& (0o74 : U8)) ||| (c >>> 6 &&& (0o3 : U8)))) ::
      uue ((0o77 : U8) &&& (c &&& (0o77 : U8))) :: doencodesLoop s
  | [] => []
  | a :: s =>
    let r := s.headD 0
    [uue ((0o77 : U8) &&& a >>> 2),
      uue ((0o77 : U8) &&& ((a <<< 4 &&& (0o60 : U8)) ||| (r >>> 4 &&& (0o17 : U8)))),
      uue ((0o77 : U8) &&& (r <<< 2 &&& (0o74 : U8))), uue 0]

def doencodes (s : List U8) : List U8 :=
  uue (BitVec.ofNat 8 s.length) :: doencodesLoop s ++ [0x0A]

def hunkSize : Nat := 1 + 63 / 3 * 4 + 1

/-- The octets in a line for a count. -/
def lineLength (len : Nat) : Nat :=
  let len := if len ≤ 2 then 45 else len / 3 * 3
  if 64 ≤ len then 63 else len

def growing (fromlen len : Nat) : Nat :=
  (fromlen + 2) / 3 * 4 + (fromlen + len - 1) / len * 2

inductive UuCroak where
  | inputLengthMismatch
  | decoder (croak : XPerl.Utf8.Croak)
deriving DecidableEq

/-- A scalar: its buffer, and whether that is UTF-8. -/
structure Source where
  pv : List U8
  utf8 : Bool

/-- `S_utf8_to_bytes`: the octets and what is left of the buffer. -/
def utf8ToBytes (flags : U32) :
    Nat → List U8 → Except XPerl.Utf8.Croak (Option (List U8 × List U8))
  | 0, s => .ok (some ([], s))
  | n + 1, s =>
    if s = [] then .ok none
    else
      match utf8ToUvMsgs s flags with
      | .error croak => .error croak
      | .ok d =>
        match utf8ToBytes flags n (s.drop d.advance) with
        | .ok (some (buf, s)) => .ok (some (d.cp.setWidth 8 :: buf, s))
        | other => other

def packULoop (flags : U32) (utf8 : Bool) (len : Nat) :
    Nat → List U8 → Nat → Except UuCroak (List U8)
  | 0, _, _ => .ok []
  | n + 1, aptr, fromlen =>
    if 0 < fromlen then
      let todo := if len < fromlen then len else fromlen
      if utf8 then
        match utf8ToBytes flags todo aptr with
        | .error croak => .error (.decoder croak)
        | .ok none => .error .inputLengthMismatch
        | .ok (some (buffer, aptr)) =>
          (packULoop flags utf8 len n aptr (fromlen - todo)).map (doencodes buffer ++ ·)
      else
        (packULoop flags utf8 len n (aptr.drop todo) (fromlen - todo)).map
          (doencodes (aptr.take todo) ++ ·)
    else .ok []

def packU (order : ByteOrder) (address : Nat) (flags : U32) (len : Nat) (fromstr : Source) :
    Except UuCroak (List U8) :=
  let fromlen :=
    if fromstr.utf8 then (order.utf8Length address fromstr.pv fromstr.pv.length).1
    else fromstr.pv.length
  packULoop flags fromstr.utf8 (lineLength len) fromlen fromstr.pv fromlen

def nextUuchar : List U8 → U8 × List U8
  | [] => (0, [])
  | c :: s => if isUuchar c then (uud c, s) else (0, c :: s)

/-- The groups of a line of `len` octets, with what is behind them. -/
def groupLoop : Nat → Nat → List U8 → List U8 × List U8
  | 0, _, s => ([], s)
  | n + 1, len, s =>
    if 0 < len then
      let (a, s) := nextUuchar s
      let (b, s) := nextUuchar s
      let (c, s) := nextUuchar s
      let (d, s) := nextUuchar s
      let hunk := [(a <<< 2) ||| (b >>> 4), (b <<< 4) ||| (c >>> 2), (c <<< 6) ||| d]
      let (more, s) := groupLoop n (len - 3) s
      (hunk.take (if 3 < len then 3 else len) ++ more, s)
    else ([], s)

def skipLineEnd (s : List U8) : List U8 :=
  if s.head? = some 0x0A then s.drop 1 else if s[1]? = some 0x0A then s.drop 2 else s

/-- The loop of `u`, a line at a time: the octets and what is behind the lines. -/
def unpackULoop : Nat → List U8 → List U8 × List U8
  | 0, s => ([], s)
  | _ + 1, [] => ([], [])
  | n + 1, c :: s =>
    if c ≠ 0x20 ∧ isUuchar c then
      let len := (uud c).toNat
      let (octets, s) := groupLoop len len s
      let (more, s) := unpackULoop n (skipLineEnd s)
      (octets ++ more, s)
    else ([], c :: s)

/-- `unpack` of `u`: the value, none where it stays undefined, and what is behind it. -/
def unpackU (s : List U8) : Option (List U8) × List U8 :=
  let (octets, left) := unpackULoop s.length s
  (if s.length * 3 / 4 = 0 ∧ octets = [] then none else some octets, left)

theorem uue_spec (h : x.toNat < 64) :
    isUuchar (uue x) = true ∧ uud (uue x) = x ∧ uue x ≠ 0x20 ∧ uue x ≠ 0x0A := by
  revert x
  decide +kernel

theorem and_six (x : U8) : ((0o77 : U8) &&& x).toNat < 64 := by
  revert x
  decide +kernel

theorem hunk_first (a b : U8) :
    ((0o77 : U8) &&& a >>> 2) <<< 2 |||
      ((0o77 : U8) &&& ((a <<< 4 &&& (0o60 : U8)) ||| (b >>> 4 &&& (0o17 : U8)))) >>> 4 = a := by
  ext i hi
  have hcases : i = 0 ∨ i = 1 ∨ i = 2 ∨ i = 3 ∨ i = 4 ∨ i = 5 ∨ i = 6 ∨ i = 7 := by omega
  rcases hcases with rfl | rfl | rfl | rfl | rfl | rfl | rfl | rfl <;> simp

theorem hunk_second (a b c : U8) :
    ((0o77 : U8) &&& ((a <<< 4 &&& (0o60 : U8)) ||| (b >>> 4 &&& (0o17 : U8)))) <<< 4 |||
      ((0o77 : U8) &&& ((b <<< 2 &&& (0o74 : U8)) ||| (c >>> 6 &&& (0o3 : U8)))) >>> 2 = b := by
  ext i hi
  have hcases : i = 0 ∨ i = 1 ∨ i = 2 ∨ i = 3 ∨ i = 4 ∨ i = 5 ∨ i = 6 ∨ i = 7 := by omega
  rcases hcases with rfl | rfl | rfl | rfl | rfl | rfl | rfl | rfl <;> simp

theorem hunk_third (b c : U8) :
    ((0o77 : U8) &&& ((b <<< 2 &&& (0o74 : U8)) ||| (c >>> 6 &&& (0o3 : U8)))) <<< 6 |||
      ((0o77 : U8) &&& (c &&& (0o77 : U8))) = c := by
  ext i hi
  have hcases : i = 0 ∨ i = 1 ∨ i = 2 ∨ i = 3 ∨ i = 4 ∨ i = 5 ∨ i = 6 ∨ i = 7 := by omega
  rcases hcases with rfl | rfl | rfl | rfl | rfl | rfl | rfl | rfl <;> simp

@[simp] theorem nextUuchar_uue (h : x.toNat < 64) (s : List U8) :
    nextUuchar (uue x :: s) = (x, s) := by
  obtain ⟨huuchar, huud, -, -⟩ := uue_spec h
  rw [nextUuchar, if_pos huuchar, huud]

theorem groupLoop_cons (hlen : 0 < len) (n : Nat) (a b c : U8) (s : List U8) :
    groupLoop (n + 1) len (uue ((0o77 : U8) &&& a >>> 2) ::
        uue ((0o77 : U8) &&& ((a <<< 4 &&& (0o60 : U8)) ||| (b >>> 4 &&& (0o17 : U8)))) ::
        uue ((0o77 : U8) &&& ((b <<< 2 &&& (0o74 : U8)) ||| (c >>> 6 &&& (0o3 : U8)))) ::
        uue ((0o77 : U8) &&& (c &&& (0o77 : U8))) :: s) =
      ([a, b, c].take (if 3 < len then 3 else len) ++ (groupLoop n (len - 3) s).1,
        (groupLoop n (len - 3) s).2) := by
  rw [groupLoop, if_pos hlen]
  simp only [nextUuchar_uue (and_six _), hunk_first, hunk_second, hunk_third]

theorem groupLoop_doencodes (hn : g.length ≤ n) (s : List U8) :
    groupLoop n g.length (doencodesLoop g ++ s) = (g, s) := by
  induction g using doencodesLoop.induct generalizing n with
  | case1 a b c g ih =>
    rw [List.length_cons, List.length_cons, List.length_cons] at hn
    obtain ⟨m, rfl⟩ : ∃ m, n = m + 1 := ⟨n - 1, by omega⟩
    have hmore := ih (show g.length ≤ m by omega)
    rw [doencodesLoop]
    simp only [List.cons_append, List.length_cons]
    rw [groupLoop_cons (by omega), show g.length + 1 + 1 + 1 - 3 = g.length by omega, hmore]
    split_ifs with hlong
    · rfl
    · have hnil : g = [] := List.length_eq_zero_iff.1 (by omega)
      rw [hnil]
      rfl
  | case2 => cases n <;> rfl
  | case3 a g hshort =>
    have hone : g = [] ∨ ∃ b, g = [b] := by
      rcases g with _ | ⟨b, _ | ⟨c, g⟩⟩
      · exact .inl rfl
      · exact .inr ⟨b, rfl⟩
      · exact absurd rfl (hshort b c g)
    obtain ⟨m, rfl⟩ : ∃ m, n = m + 1 := ⟨n - 1, by
      rw [List.length_cons] at hn
      omega⟩
    have hstop (s : List U8) : groupLoop m 0 s = ([], s) := by
      cases m <;> rfl
    have hlast (r : U8) : (0o77 : U8) &&& (r <<< 2 &&& (0o74 : U8)) =
        (0o77 : U8) &&& ((r <<< 2 &&& (0o74 : U8)) ||| ((0 : U8) >>> 6 &&& (0o3 : U8))) := by
      simp
    rw [doencodesLoop.eq_3 _ _ hshort, hlast]
    rcases hone with rfl | ⟨b, rfl⟩
    · have hgroup := groupLoop_cons (show 0 < 1 by decide) m a 0 0 s
      rw [hstop] at hgroup
      exact hgroup
    · have hgroup := groupLoop_cons (show 0 < 2 by decide) m a b 0 s
      rw [hstop] at hgroup
      exact hgroup

theorem doencodesLoop_spec (g : List U8) :
    (doencodesLoop g).length = (g.length + 2) / 3 * 4 ∧
      ∀ x ∈ doencodesLoop g, isUuchar x = true ∧ x ≠ 0x20 ∧ x ≠ 0x0A := by
  have huue (x : U8) : isUuchar (uue ((0o77 : U8) &&& x)) = true ∧
      uue ((0o77 : U8) &&& x) ≠ 0x20 ∧ uue ((0o77 : U8) &&& x) ≠ 0x0A := by
    obtain ⟨huuchar, -, hblank, hend⟩ := uue_spec (and_six x)
    exact ⟨huuchar, hblank, hend⟩
  have hzero : isUuchar (uue 0) = true ∧ uue 0 ≠ 0x20 ∧ uue 0 ≠ 0x0A := huue 0
  induction g using doencodesLoop.induct with
  | case1 a b c g ih =>
    obtain ⟨hlength, hall⟩ := ih
    constructor
    · rw [doencodesLoop]
      simp only [List.length_cons, hlength]
      omega
    · rw [doencodesLoop]
      simp only [List.forall_mem_cons]
      exact ⟨huue _, huue _, huue _, huue _, hall⟩
  | case2 => exact ⟨rfl, by simp [doencodesLoop]⟩
  | case3 a g hshort =>
    have hlength : g.length < 2 := by
      rcases g with _ | ⟨b, _ | ⟨c, g⟩⟩
      · decide
      · simp
      · exact absurd rfl (hshort b c g)
    constructor
    · rw [doencodesLoop.eq_3 _ _ hshort]
      simp only [List.length_cons, List.length_nil]
      omega
    · rw [doencodesLoop.eq_3 _ _ hshort]
      simp only [List.forall_mem_cons]
      exact ⟨huue _, huue _, huue _, hzero, by simp⟩

section Lines

/-- Lines of which none is empty, and all but the last are full. -/
inductive Lines (len : Nat) : List (List U8) → Prop
  | nil : Lines len []
  | last (g : List U8) : 0 < g.length → g.length ≤ len → Lines len [g]
  | cons (g : List U8) (groups : List (List U8)) : g.length = len → groups ≠ [] →
      Lines len groups → Lines len (g :: groups)

variable {groups : List (List U8)}

theorem lineLength_eq (len : Nat) :
    lineLength len = if len ≤ 2 then 45 else min 63 (len / 3 * 3) := by
  rw [lineLength]
  split_ifs <;> omega

theorem lineLength_spec (len : Nat) :
    0 < lineLength len ∧ lineLength len ≤ 63 ∧ 3 ∣ lineLength len := by
  rw [lineLength_eq]
  split_ifs <;> omega

theorem length_doencodes (g : List U8) : (doencodes g).length = (g.length + 2) / 3 * 4 + 2 := by
  rw [doencodes, List.length_append, List.length_cons, (doencodesLoop_spec g).1]
  rfl

theorem lineEnd_not_mem (h : g.length ≤ 63) : 0x0A ∉ (doencodes g).dropLast := by
  have hlen : (BitVec.ofNat 8 g.length).toNat = g.length := by
    rw [BitVec.toNat_ofNat, Nat.mod_eq_of_lt (by omega)]
  obtain ⟨-, -, -, hend⟩ := uue_spec (show (BitVec.ofNat 8 g.length).toNat < 64 by omega)
  rw [doencodes, List.dropLast_concat, List.mem_cons, not_or]
  exact ⟨Ne.symm hend, fun hmem => ((doencodesLoop_spec g).2 _ hmem).2.2 rfl⟩

theorem Lines.range (h : Lines len groups) (hpos : 0 < len) :
    ∀ g ∈ groups, 0 < g.length ∧ g.length ≤ len := by
  induction h with
  | nil => simp
  | last g hlow hhigh => simpa using ⟨hlow, hhigh⟩
  | cons g groups hfull hne hlines ih =>
    exact List.forall_mem_cons.2 ⟨⟨by omega, by omega⟩, ih⟩

theorem Lines.length (h : Lines len groups) (hpos : 0 < len) (hthree : 3 ∣ len) :
    (groups.flatMap doencodes).length = growing groups.flatten.length len := by
  induction h with
  | nil =>
    have hnone : (0 + len - 1) / len = 0 := Nat.div_eq_of_lt (by omega)
    rw [List.flatten_nil, List.length_nil, growing, hnone]
    rfl
  | last g hlow hhigh =>
    have hone : (g.length + len - 1) / len = 1 :=
      Nat.div_eq_of_lt_le (by omega) (by omega)
    rw [List.flatMap_singleton, List.flatten_singleton, length_doencodes, growing, hone]
  | cons g groups hfull hne hlines ih =>
    obtain ⟨k, rfl⟩ := hthree
    have hmore : (g.length + groups.flatten.length + 3 * k - 1) / (3 * k) =
        (groups.flatten.length + 3 * k - 1) / (3 * k) + 1 := by
      rw [← Nat.add_div_right _ hpos]
      congr 1
      omega
    rw [List.flatMap_cons, List.length_append, ih, length_doencodes, List.flatten_cons,
      List.length_append, growing, growing, hmore]
    omega

theorem unpackULoop_line (hlow : 0 < g.length) (hhigh : g.length ≤ 63) (n : Nat) (s : List U8) :
    unpackULoop (n + 1) (doencodes g ++ s) =
      (g ++ (unpackULoop n s).1, (unpackULoop n s).2) := by
  have hlen : (BitVec.ofNat 8 g.length).toNat = g.length := by
    rw [BitVec.toNat_ofNat, Nat.mod_eq_of_lt (by omega)]
  obtain ⟨huuchar, huud, hblank, -⟩ :=
    uue_spec (show (BitVec.ofNat 8 g.length).toNat < 64 by omega)
  have hgroups := groupLoop_doencodes (Nat.le_refl g.length) (0x0A :: s)
  rw [doencodes, List.cons_append, List.cons_append, List.append_assoc, List.singleton_append,
    unpackULoop, if_pos ⟨hblank, huuchar⟩]
  dsimp only
  rw [huud, hlen, hgroups]
  rfl

theorem unpackULoop_lines (h : ∀ g ∈ groups, 0 < g.length ∧ g.length ≤ 63)
    (hn : groups.length ≤ n) : unpackULoop n (groups.flatMap doencodes) = (groups.flatten, []) := by
  induction groups generalizing n with
  | nil => cases n <;> rfl
  | cons g groups ih =>
    obtain ⟨⟨hlow, hhigh⟩, hgroups⟩ := List.forall_mem_cons.1 h
    rw [List.length_cons] at hn
    obtain ⟨m, rfl⟩ : ∃ m, n = m + 1 := ⟨n - 1, by omega⟩
    rw [List.flatMap_cons, unpackULoop_line hlow hhigh, ih hgroups (by omega), List.flatten_cons]

theorem length_le_flatMap (groups : List (List U8)) :
    groups.length ≤ (groups.flatMap doencodes).length := by
  induction groups with
  | nil => exact Nat.le_refl 0
  | cons g groups ih =>
    rw [List.flatMap_cons, List.length_append, length_doencodes, List.length_cons]
    omega

theorem unpackU_lines (h : ∀ g ∈ groups, 0 < g.length ∧ g.length ≤ 63) :
    unpackU (groups.flatMap doencodes) =
      (if groups.flatten = [] then none else some groups.flatten, []) := by
  rw [unpackU, unpackULoop_lines h (length_le_flatMap groups)]
  dsimp only
  cases groups with
  | nil => rfl
  | cons g groups =>
    have hlow := (h g List.mem_cons_self).1
    have hne : (g :: groups).flatten ≠ [] := by
      rw [List.flatten_cons]
      exact List.append_ne_nil_of_left_ne_nil (List.ne_nil_of_length_pos hlow) _
    rw [if_neg fun hand => hne hand.2, if_neg hne]

end Lines

section Source

variable {fromstr : Source} {flags : U32}

/-- A scalar holds an octet string, upgraded or not. -/
def Source.Holds (fromstr : Source) (bytes : List U8) : Prop :=
  fromstr.pv = if fromstr.utf8 then upgrade bytes else bytes

theorem utf8ToBytes_upgrade (h : n ≤ bytes.length) :
    utf8ToBytes flags n (upgrade bytes) = .ok (some (bytes.take n, upgrade (bytes.drop n))) := by
  induction n generalizing bytes with
  | zero => rfl
  | succ n ih =>
    obtain ⟨c, s, rfl⟩ := List.exists_cons_of_length_pos (show 0 < bytes.length by omega)
    have hencode : upgrade (c :: s) = XPerl.Utf8.encoding c.toNat ++ upgrade s := by
      rw [XPerl.Utf8.upgrade_cons, XPerl.Utf8.encodeByte_eq]
      rfl
    have hlt := c.isLt
    have hlegal : c.toNat ≤ maxLegalCP := Nat.le_trans (Nat.le_of_lt hlt) (by decide)
    have hne : upgrade (c :: s) ≠ [] := by
      rw [hencode]
      exact List.append_ne_nil_of_left_ne_nil (XPerl.Utf8.encoding_ne_nil _) _
    have hallowed : ¬ XPerl.Utf8.utf8Disallowed flags c.toNat :=
      XPerl.Utf8.utf8Disallowed_two (by omega)
    have hdecode := XPerl.Utf8.decoder_encoding flags hlegal
      (List.prefix_append (XPerl.Utf8.encoding c.toNat) (upgrade s))
    obtain ⟨-, cp, errors, hcp, hdecode⟩ :=
      hdecode.resolve_right fun hno => hno.elim (hallowed ·.1) (hallowed ·.1)
    have hvalue : cp.setWidth 8 = c := by
      apply BitVec.eq_of_toNat_eq
      rw [BitVec.toNat_setWidth, hcp, Nat.mod_eq_of_lt hlt]
    rw [List.length_cons] at h
    rw [utf8ToBytes, if_neg hne, hencode, hdecode]
    dsimp only
    rw [List.drop_left, ih (by omega), hvalue]
    rfl

theorem utf8Length_upgrade (order : ByteOrder) (address : Nat) (bytes : List U8) :
    (order.utf8Length address (upgrade bytes) (upgrade bytes).length).1 = bytes.length := by
  have hspans := XPerl.Utf8.spans_encodeAll (bytes.map ofByte) [] []
  rw [← XPerl.Utf8.upgrade_eq, List.append_nil, List.nil_append, List.length_nil, Nat.zero_add,
    List.length_map] at hspans
  rw [XPerl.Utf8.utf8Length_eq order address hspans (.inl rfl), if_neg fun hand => hand.2 rfl]

theorem packULoop_spec (flags : U32) (utf8 : Bool) (hlen : 0 < len) (hn : bytes.length ≤ n) :
    ∃ groups, groups.flatten = bytes ∧ Lines len groups ∧
      packULoop flags utf8 len n (if utf8 then upgrade bytes else bytes) bytes.length =
        .ok (groups.flatMap doencodes) := by
  induction n generalizing bytes with
  | zero =>
    obtain rfl := List.length_eq_zero_iff.1 (Nat.le_zero.1 hn)
    exact ⟨[], rfl, .nil, rfl⟩
  | succ n ih =>
    rcases Nat.eq_zero_or_pos bytes.length with hzero | hpos
    · obtain rfl := List.length_eq_zero_iff.1 hzero
      exact ⟨[], rfl, .nil, rfl⟩
    · have hstep (todo : Nat) (htodo : todo = if len < bytes.length then len else bytes.length) :
          packULoop flags utf8 len (n + 1) (if utf8 then upgrade bytes else bytes) bytes.length =
            (packULoop flags utf8 len n
              (if utf8 then upgrade (bytes.drop todo) else bytes.drop todo)
              (bytes.drop todo).length).map (doencodes (bytes.take todo) ++ ·) := by
        have hle : todo ≤ bytes.length := by
          rw [htodo]
          split_ifs <;> omega
        rw [packULoop, if_pos hpos, ← htodo, List.length_drop]
        cases utf8 with
        | false => rfl
        | true =>
          simp only [if_true]
          rw [utf8ToBytes_upgrade hle]
      by_cases hlong : len < bytes.length
      · have hdrop : (bytes.drop len).length ≤ n := by
          rw [List.length_drop]
          omega
        obtain ⟨groups, hflatten, hlines, hrun⟩ := ih hdrop
        have hne : groups ≠ [] := by
          rintro rfl
          have hlength := congrArg List.length hflatten
          rw [List.flatten_nil, List.length_nil, List.length_drop] at hlength
          omega
        refine ⟨bytes.take len :: groups, ?_, .cons _ _ ?_ hne hlines, ?_⟩
        · rw [List.flatten_cons, hflatten, List.take_append_drop]
        · rw [List.length_take]
          omega
        · rw [hstep len (if_pos hlong).symm, hrun]
          rfl
      · refine ⟨[bytes], List.flatten_singleton, .last bytes hpos (by omega), ?_⟩
        rw [hstep bytes.length (if_neg hlong).symm, List.drop_length, List.take_length]
        have hnone : packULoop flags utf8 len n (if utf8 then upgrade [] else []) 0 = .ok [] := by
          cases n <;> rfl
        rw [List.length_nil, hnone]
        simp [Except.map]

theorem packU_spec (order : ByteOrder) (address : Nat) (flags : U32) (count : Nat)
    (h : fromstr.Holds bytes) :
    ∃ groups, groups.flatten = bytes ∧ Lines (lineLength count) groups ∧
      (∀ g ∈ groups, (doencodes g).length ≤ hunkSize ∧ 0x0A ∉ (doencodes g).dropLast) ∧
      packU order address flags count fromstr = .ok (groups.flatMap doencodes) ∧
      (groups.flatMap doencodes).length = growing bytes.length (lineLength count) ∧
      unpackU (groups.flatMap doencodes) = (if bytes = [] then none else some bytes, []) := by
  obtain ⟨hpos, hhigh, hthree⟩ := lineLength_spec count
  obtain ⟨groups, rfl, hlines, hrun⟩ :=
    packULoop_spec flags fromstr.utf8 hpos (Nat.le_refl bytes.length)
  have hrange := hlines.range hpos
  refine ⟨groups, rfl, hlines, fun g hg => ?_, ?_, hlines.length hpos hthree,
    unpackU_lines fun g hg => ⟨(hrange g hg).1, (hrange g hg).2.trans hhigh⟩⟩
  · have hle := (hrange g hg).2
    refine ⟨?_, lineEnd_not_mem (hle.trans hhigh)⟩
    rw [length_doencodes, hunkSize]
    omega
  · have hfromlen : (if fromstr.utf8 then
        (order.utf8Length address fromstr.pv fromstr.pv.length).1 else fromstr.pv.length) =
        groups.flatten.length := by
      rw [h]
      cases fromstr.utf8 with
      | false => rfl
      | true => exact utf8Length_upgrade order address groups.flatten
    rw [packU, hfromlen, h]
    exact hrun

end Source

end XPerl.Pack
