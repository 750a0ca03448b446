import XPerl.Pack.Digits

/-! The integer directives of `unpack`, and their checksums of up to 64 bits. -/

namespace XPerl.Pack

open XPerl.Framework.PlaceValue (readFrom)
open XPerl.Utf8 (upgrade utf8ToUvMsgs)

variable {s rest : List U8} {n m len strlen checksum : Nat} {v : Int} {vs : List Int}

/-- The integer directives; `Shriek` stands for `!`. -/
inductive IntDirective where
  | c | C | W | U | s | S | sShriek | SShriek | i | I | iShriek | IShriek
  | l | L | lShriek | LShriek | q | Q | j | J
  | n | N | v | V | nShriek | NShriek | vShriek | VShriek
deriving DecidableEq

namespace IntDirective

def size : IntDirective → Nat
  | .c | .C | .W | .U => 1
  | .s | .S | .sShriek | .SShriek | .n | .v | .nShriek | .vShriek => 2
  | .i | .I | .iShriek | .IShriek | .l | .L | .N | .V | .NShriek | .VShriek => 4
  | .lShriek | .LShriek | .q | .Q | .j | .J => 8

def signed : IntDirective → Bool
  | .c | .s | .sShriek | .i | .iShriek | .l | .lShriek | .q | .j | .nShriek | .NShriek | .vShriek
  | .VShriek => true
  | _ => false

/-- Whether the value goes through `PerlSock_ntohs` or `PerlSock_ntohl`, which swap the octets of
a little-endian machine; `vtohs` and `vtohl` do not. -/
def networkOrder : IntDirective → Bool
  | .n | .N | .nShriek | .NShriek => true
  | _ => false

def stopsAtEnd : IntDirective → Bool
  | .c | .C | .U => true
  | _ => false

end IntDirective

/-- How a count is given. -/
inductive Howlen where
  | noLen
  | number (length : Nat)
  | star
deriving DecidableEq

inductive UnpackCroak where
  | u0RequiresUtf8Input
  | decoder (croak : XPerl.Utf8.Croak)
deriving DecidableEq

/-- `S_reverse_copy` and `Copy` into a variable of a little-endian machine. -/
def copied (needsSwap : Bool) (buf : List U8) : List U8 := if needsSwap then buf.reverse else buf

def variableValue (buf : List U8) : Nat := readFrom 256 0 (buf.reverse.map BitVec.toNat)

/-- One value, and the octets behind it. -/
def IntDirective.shift (d : IntDirective) (needsSwap : Bool) (s : List U8) :
    Except UnpackCroak (Int × List U8) :=
  if d = .U then
    match utf8ToUvMsgs s 0 with
    | .error croak => .error (.decoder croak)
    | .ok decoded => .ok (decoded.cp.toNat, s.drop decoded.advance)
  else
    let buf := copied needsSwap (s.take d.size)
    let value := variableValue (if d.networkOrder then buf.reverse else buf)
    .ok (if d.signed ∧ 2 ^ (8 * d.size - 1) ≤ value then (value : Int) - 2 ^ (8 * d.size) else value,
      s.drop d.size)

/-- The loop of a directive: each value is pushed, or added to `cuv`. -/
def unpackIntLoop (d : IntDirective) (needsSwap : Bool) (checksum : Nat) :
    Nat → List U8 → List Int → UV → Except UnpackCroak (List Int × UV × List U8)
  | 0, s, pushed, cuv => .ok (pushed, cuv, s)
  | len + 1, s, pushed, cuv =>
    if d.stopsAtEnd ∧ s = [] then .ok (pushed, cuv, s)
    else
      match d.shift needsSwap s with
      | .error croak => .error croak
      | .ok (value, s) =>
        if checksum = 0 then unpackIntLoop d needsSwap checksum len s (pushed ++ [value]) cuv
        else unpackIntLoop d needsSwap checksum len s pushed (cuv + BitVec.ofInt 64 value)

/-- What is pushed for a checksum of up to `bits_in_uv` bits. -/
def checksumValue (checksum : Nat) (cuv : UV) : Int :=
  let mask := ((((1 : UV) <<< (checksum - 1)) - 1) <<< 1) ||| 1
  ((if checksum < 64 then cuv &&& mask else cuv).toNat : Int)

/-- What a directive leaves: the values, the octets behind them, and the mode it switches to. -/
structure Unpacked where
  pushed : List Int
  left : List U8
  utf8 : Bool
deriving DecidableEq

/-- The count, cut to the whole values that are left of a string of `strlen` octets. -/
def itemCount (d : IntDirective) (howlen : Howlen) (strlen : Nat) (s : List U8) : Nat :=
  let len := match howlen with
    | .noLen => 1
    | .number length => length
    | .star => strlen
  let howmany := s.length / d.size
  if howmany < len then howmany else len

/-- A directive in octet mode, in a string of `strlen` octets, with a checksum if not 0. -/
def unpackInt (doUtf8 : Bool) (checksum : Nat) (d : IntDirective) (needsSwap : Bool)
    (howlen : Howlen) (strlen : Nat) (s : List U8) : Except UnpackCroak Unpacked :=
  let len := itemCount d howlen strlen s
  let finish (pushed : List Int) (cuv : UV) : List Int :=
    if checksum = 0 then pushed else pushed ++ [checksumValue checksum cuv]
  if d = .C ∧ len = 0 then .ok ⟨finish [] 0, s, doUtf8⟩
  else if d = .U ∧ len = 0 then
    if howlen = .star then .ok ⟨finish [] 0, s, false⟩
    else if doUtf8 then .ok ⟨finish [] 0, s, false⟩
    else .error .u0RequiresUtf8Input
  else
    match unpackIntLoop d needsSwap checksum len s [] 0 with
    | .error croak => .error croak
    | .ok (pushed, cuv, left) => .ok ⟨finish pushed cuv, left, false⟩

/-- `unpackstring` of an octet string for a template of one directive, with `%` before it if the
checksum is not 0: `need_utf8` looks for a `U` at the start and for `U0`. -/
def unpackstring (checksum : Nat) (d : IntDirective) (needsSwap : Bool) (howlen : Howlen)
    (s : List U8) : Except UnpackCroak Unpacked :=
  let needUtf8 := d = .U ∧ (checksum = 0 ∨ howlen = .number 0)
  let s := if needUtf8 then upgrade s else s
  unpackInt needUtf8 checksum d needsSwap howlen s.length s

def bitcount (c : U8) : Nat :=
  [1, 2, 4, 8, 16, 32, 64, 128].countP fun (mask : U8) => c &&& mask ≠ 0

def bitcountLoop : Nat → Nat → List U8 → UV → Nat × List U8 × UV
  | 0, len, s, cuv => (len, s, cuv)
  | n + 1, len, s, cuv =>
    if 8 ≤ len then bitcountLoop n (len - 8) s.tail (cuv + BitVec.ofNat 64 (bitcount (s.headD 0)))
    else (len, s, cuv)

def lastBitsLoop (descending : Bool) : Nat → U8 → UV → UV
  | 0, _, cuv => cuv
  | len + 1, bits, cuv =>
    if descending then
      lastBitsLoop descending len (bits <<< 1) (if bits &&& 0x80 ≠ 0 then cuv + 1 else cuv)
    else lastBitsLoop descending len (bits >>> 1) (if bits &&& 1 ≠ 0 then cuv + 1 else cuv)

def lastBits (descending : Bool) (len : Nat) (s : List U8) (cuv : UV) : UV × List U8 :=
  if len ≠ 0 ∧ s ≠ [] then (lastBitsLoop descending len (s.headD 0) cuv, s.tail) else (cuv, s)

/-- `unpack` of `B` and `b` with a checksum; a count of `*` is none. -/
def checksumBits (checksum : Nat) (descending : Bool) (howlen : Option Nat) (s : List U8) :
    Int × List U8 :=
  let most := s.length * 8
  let len := match howlen with
    | none => most
    | some len => if most < len then most else len
  let (len, s, cuv) := bitcountLoop len len s 0
  let (cuv, s) := lastBits descending len s cuv
  (checksumValue checksum cuv, s)

theorem checksumValue_ofInt (hpos : 0 < checksum) (hle : checksum ≤ 64) (v : Int) :
    checksumValue checksum (BitVec.ofInt 64 v) = v % 2 ^ checksum := by
  have hword : ((BitVec.ofInt 64 v).toNat : Int) = v % 2 ^ 64 := by
    rw [BitVec.toNat_ofInt]
    exact Int.toNat_of_nonneg (Int.emod_nonneg v (by decide))
  rw [checksumValue]
  split_ifs with hlt
  · have hmask : ∀ k < 64, 0 < k →
        (((((1 : UV) <<< (k - 1)) - 1) <<< 1) ||| 1).toNat = 2 ^ k - 1 := by decide +kernel
    rw [BitVec.toNat_and, hmask checksum hlt hpos, Nat.and_two_pow_sub_one_eq_mod]
    push_cast
    rw [hword]
    exact Int.emod_emod_of_dvd v (pow_dvd_pow 2 hle)
  · rw [hword, show checksum = 64 by omega]

theorem unpackIntLoop_checksum (d : IntDirective) (needsSwap : Bool) (hc : checksum ≠ 0)
    (len : Nat) (s : List U8) (pushed vs : List Int) (cuv : UV) :
    unpackIntLoop d needsSwap checksum len s pushed (BitVec.ofInt 64 vs.sum) =
      (unpackIntLoop d needsSwap 0 len s vs cuv).map
        fun r => (pushed, BitVec.ofInt 64 r.1.sum, r.2.2) := by
  induction len generalizing s vs with
  | zero => rfl
  | succ len ih =>
    rw [unpackIntLoop, unpackIntLoop]
    by_cases hend : d.stopsAtEnd = true ∧ s = []
    · rw [if_pos hend, if_pos hend]
      rfl
    · rw [if_neg hend, if_neg hend]
      cases d.shift needsSwap s with
      | error croak => rfl
      | ok p =>
        have hsum : BitVec.ofInt 64 vs.sum + BitVec.ofInt 64 p.1 =
            BitVec.ofInt 64 (vs ++ [p.1]).sum := by
          rw [← BitVec.ofInt_add, List.sum_append, List.sum_singleton]
        simp only [if_neg hc, if_true, hsum]
        exact ih p.2 (vs ++ [p.1])

theorem unpackInt_checksum (hpos : 0 < checksum) (hle : checksum ≤ 64) (doUtf8 : Bool)
    (d : IntDirective) (needsSwap : Bool) (howlen : Howlen) (strlen : Nat) (s : List U8) :
    unpackInt doUtf8 checksum d needsSwap howlen strlen s =
      (unpackInt doUtf8 0 d needsSwap howlen strlen s).map
        fun r => { r with pushed := [r.pushed.sum % 2 ^ checksum] } := by
  have hc : checksum ≠ 0 := by omega
  have hzero : checksumValue checksum 0 = 0 := by
    have hvalue := checksumValue_ofInt hpos hle 0
    rw [Int.zero_emod] at hvalue
    exact hvalue
  unfold unpackInt
  simp only [if_neg hc, hzero, List.nil_append, if_true]
  split_ifs with hC hU hstar hmode
  · rfl
  · rfl
  · rfl
  · rfl
  · have hloop := unpackIntLoop_checksum d needsSwap hc (itemCount d howlen strlen s) s [] [] 0
    rw [List.sum_nil] at hloop
    change unpackIntLoop d needsSwap checksum _ s [] 0 = _ at hloop
    rw [hloop]
    cases unpackIntLoop d needsSwap 0 (itemCount d howlen strlen s) s [] 0 with
    | error croak => rfl
    | ok r => simp [Except.map, checksumValue_ofInt hpos hle]

theorem unpackstring_checksum (hpos : 0 < checksum) (hle : checksum ≤ 64) {d : IntDirective}
    (hd : d ≠ .U) (needsSwap : Bool) (howlen : Howlen) (s : List U8) :
    unpackstring checksum d needsSwap howlen s =
      (unpackstring 0 d needsSwap howlen s).map
        fun r => { r with pushed := [r.pushed.sum % 2 ^ checksum] } := by
  have hno (k : Nat) : ¬ (d = .U ∧ (k = 0 ∨ howlen = .number 0)) := fun h => hd h.1
  rw [unpackstring, unpackstring, if_neg (hno checksum), if_neg (hno 0), unpackInt_checksum hpos hle,
    decide_eq_false (hno checksum), decide_eq_false (hno 0)]

section Bits

variable {kind : DigitKind} {descending : Bool} {l k : Nat} {bits o : U8} {cuv : UV}

def bitKind (descending : Bool) : DigitKind :=
  if descending then DigitDirective.B.kind else DigitDirective.b.kind

theorem perOctet_bitKind (descending : Bool) : (bitKind descending).perOctet = 8 := by
  cases descending <;> rfl

theorem count_spread (descending : Bool) (o : U8) :
    ((bitKind descending).spread o).count 0x31 = bitcount o := by
  revert o
  cases descending <;> decide +kernel

theorem lastBitsLoop_eq (descending : Bool) (k : Nat) (bits : U8) (cuv : UV) :
    lastBitsLoop descending k bits cuv = cuv + BitVec.ofNat 64
      (((List.iterate (bitKind descending).shift bits k).map (bitKind descending).char).count
        0x31) := by
  induction k generalizing bits cuv with
  | zero => simp [lastBitsLoop, List.iterate]
  | succ k ih =>
    have hone (c : U8) (rest : List U8) : (c :: rest).count 0x31 =
        (if c = 0x31 then 1 else 0) + rest.count 0x31 := by
      rw [List.count_cons, Nat.add_comm]
      simp
    cases descending with
    | true =>
      rw [lastBitsLoop, if_pos rfl, ih, List.iterate, List.map_cons, hone, BitVec.ofNat_add,
        ← BitVec.add_assoc]
      congr 1
      simp only [bitKind, DigitDirective.kind]
      split_ifs <;> simp_all
    | false =>
      rw [lastBitsLoop, if_neg Bool.false_ne_true, ih, List.iterate, List.map_cons, hone,
        BitVec.ofNat_add, ← BitVec.add_assoc]
      congr 1
      simp only [bitKind, DigitDirective.kind]
      split_ifs <;> simp_all

theorem unpackDigitsLoop_more (kind : DigitKind) (hl : 0 < l % kind.perOctet)
    (hk : l % kind.perOctet + k ≤ kind.perOctet) (bits : U8) (s : List U8) :
    unpackDigitsLoop kind k l bits s =
      ((List.iterate kind.shift (kind.shift bits) k).map kind.char, s) := by
  induction k generalizing l bits with
  | zero => rfl
  | succ k ih =>
    rw [unpackDigitsLoop, if_pos (by omega)]
    dsimp only
    rcases Nat.eq_zero_or_pos k with rfl | hpos
    · rfl
    · have hmod := mod_succ (show l % kind.perOctet + 1 < kind.perOctet by omega)
      rw [ih (by omega) (by omega)]
      rfl

theorem unpackDigitsLoop_first (kind : DigitKind) (hl : l % kind.perOctet = 0) (hpos : 0 < k)
    (hk : k < kind.perOctet) (bits o : U8) (s : List U8) :
    unpackDigitsLoop kind k l bits (o :: s) = ((List.iterate kind.shift o k).map kind.char, s) := by
  obtain ⟨j, rfl⟩ : ∃ j, k = j + 1 := ⟨k - 1, by omega⟩
  have hmod := mod_succ (show l % kind.perOctet + 1 < kind.perOctet by omega)
  rw [unpackDigitsLoop, if_neg (not_not.2 hl)]
  dsimp only [List.headD_cons, List.tail_cons]
  rw [unpackDigitsLoop_more kind (by omega) (by omega)]
  rfl

theorem bitcountLoop_spec (descending : Bool) (hlen : len ≤ s.length * 8) (hn : len ≤ n)
    (hl : l % 8 = 0) (cuv : UV) :
    lastBits descending (bitcountLoop n len s cuv).1 (bitcountLoop n len s cuv).2.1
        (bitcountLoop n len s cuv).2.2 =
      (cuv + BitVec.ofNat 64
          ((unpackDigitsLoop (bitKind descending) len l 0 s).1.count 0x31),
        (unpackDigitsLoop (bitKind descending) len l 0 s).2) := by
  have hper := perOctet_bitKind descending
  have hrest (k : Nat) (hk : k < 8) (s : List U8) (hs : k ≤ s.length * 8) (l : Nat)
      (hl : l % 8 = 0) (cuv : UV) :
      lastBits descending k s cuv =
        (cuv + BitVec.ofNat 64 ((unpackDigitsLoop (bitKind descending) k l 0 s).1.count 0x31),
          (unpackDigitsLoop (bitKind descending) k l 0 s).2) := by
    rcases Nat.eq_zero_or_pos k with rfl | hpos
    · simp [lastBits, unpackDigitsLoop]
    · obtain ⟨o, s, rfl⟩ := List.exists_cons_of_length_pos (show 0 < s.length by omega)
      rw [lastBits, if_pos ⟨by omega, List.cons_ne_nil o s⟩, lastBitsLoop_eq,
        unpackDigitsLoop_first _ (by rw [hper, hl]) hpos (by omega)]
      rfl
  induction n generalizing len s l cuv with
  | zero => exact hrest len (by omega) s hlen l hl cuv
  | succ n ih =>
    rw [bitcountLoop]
    by_cases hlong : 8 ≤ len
    · obtain ⟨o, s, rfl⟩ := List.exists_cons_of_length_pos (show 0 < s.length by omega)
      rw [List.length_cons] at hlen
      have hoctet := unpackDigitsLoop_octet (bitKind descending) (by omega)
        (show l % (bitKind descending).perOctet = 0 by rw [hper, hl]) (len - 8) 0 o s
      rw [hper, Nat.add_sub_cancel' hlong] at hoctet
      rw [if_pos hlong, hoctet, List.tail_cons, List.headD_cons,
        ih (by omega) (by omega) (show (l + 8) % 8 = 0 by omega), List.count_append,
        count_spread, BitVec.ofNat_add, BitVec.add_assoc]
    · rw [if_neg hlong]
      exact hrest len (by omega) s hlen l hl cuv

theorem checksumBits_eq (hpos : 0 < checksum) (hle : checksum ≤ 64) (descending : Bool)
    (howlen : Option Nat) (s : List U8) :
    checksumBits checksum descending howlen s =
      ((((unpackDigits (bitKind descending) howlen s).1.count 0x31 : Nat) : Int) % 2 ^ checksum,
        (unpackDigits (bitKind descending) howlen s).2) := by
  have hper := perOctet_bitKind descending
  have hloop (len : Nat) (hlen : len ≤ s.length * 8) :=
    bitcountLoop_spec descending hlen (Nat.le_refl len) (Nat.zero_mod 8) 0
  have hword (k : Nat) : (0 : UV) + BitVec.ofNat 64 k = BitVec.ofInt 64 k := by
    simp
  unfold checksumBits unpackDigits
  rw [hper]
  cases howlen with
  | none =>
    dsimp only
    rw [hloop _ (Nat.le_refl _), hword, checksumValue_ofInt hpos hle]
  | some len =>
    dsimp only
    rw [hloop _ (by split_ifs <;> omega), hword, checksumValue_ofInt hpos hle]

end Bits

/-- A checksum is the sum of the values that the directive gives at the same place in octet mode,
for bits the number of ones; a template of an integer directive gives the sum of its own values
unless it begins with `U`. -/
theorem checksum_sums (hpos : 0 < n) (hle : n ≤ 64) :
    (∀ (doUtf8 : Bool) (d : IntDirective) (needsSwap : Bool) (howlen : Howlen) (strlen : Nat)
        (s : List U8), unpackInt doUtf8 n d needsSwap howlen strlen s =
          (unpackInt doUtf8 0 d needsSwap howlen strlen s).map
            fun r => { r with pushed := [r.pushed.sum % 2 ^ n] }) ∧
      (∀ (d : IntDirective) (needsSwap : Bool) (howlen : Howlen) (s : List U8), d ≠ .U →
        unpackstring n d needsSwap howlen s = (unpackstring 0 d needsSwap howlen s).map
          fun r => { r with pushed := [r.pushed.sum % 2 ^ n] }) ∧
      ∀ (descending : Bool) (howlen : Option Nat) (s : List U8),
        checksumBits n descending howlen s =
          ((((unpackDigits (bitKind descending) howlen s).1.count 0x31 : Nat) : Int) % 2 ^ n,
            (unpackDigits (bitKind descending) howlen s).2) :=
  ⟨unpackInt_checksum hpos hle,
    fun _ needsSwap howlen s hd => unpackstring_checksum hpos hle hd needsSwap howlen s,
    checksumBits_eq hpos hle⟩

/-- A sum of 16 bits, and one of a single bit. -/
theorem checksum_sums_sixteen :
    (∀ (doUtf8 : Bool) (d : IntDirective) (needsSwap : Bool) (howlen : Howlen) (strlen : Nat)
        (s : List U8), unpackInt doUtf8 16 d needsSwap howlen strlen s =
          (unpackInt doUtf8 0 d needsSwap howlen strlen s).map
            fun r => { r with pushed := [r.pushed.sum % 2 ^ 16] }) ∧
      (∀ (d : IntDirective) (needsSwap : Bool) (howlen : Howlen) (s : List U8), d ≠ .U →
        unpackstring 16 d needsSwap howlen s = (unpackstring 0 d needsSwap howlen s).map
          fun r => { r with pushed := [r.pushed.sum % 2 ^ 16] }) ∧
      ∀ (descending : Bool) (howlen : Option Nat) (s : List U8),
        checksumBits 16 descending howlen s =
          ((((unpackDigits (bitKind descending) howlen s).1.count 0x31 : Nat) : Int) % 2 ^ 16,
            (unpackDigits (bitKind descending) howlen s).2) :=
  checksum_sums (by decide) (by decide)

/-- A template that begins with `U` reads an upgraded copy, and one with `%` before it does not. -/
theorem checksum_sums_fail :
    unpackstring 0 .U false .star [0xC3, 0xA9] = .ok ⟨[0xC3, 0xA9], [], false⟩ ∧
      unpackstring 32 .U false .star [0xC3, 0xA9] = .ok ⟨[0xE9], [], false⟩ := by
  decide +kernel

end XPerl.Pack
