import Mathlib.Data.List.Sections
import XPerl.Pack.Uuencode

/-! Bit strings and hex strings. -/

namespace XPerl.Pack

open XPerl.Utf8 (ByteOrder U32 upgrade utf8ToUvMsgs)

variable {c o : U8} {s rest ds octets bytes : List U8} {n m l bits len count : Nat}

/-- What sets a digit directive apart: the digits in an octet, whether a count is cut, where a digit
goes, how the others make room, what is left to shift, and the digit read off an octet. -/
structure DigitKind where
  perOctet : Nat
  clips : Bool → Bool
  put : UV → U8
  shift : U8 → U8
  finish : Nat → U8 → U8
  char : U8 → U8

def hexdigit : List U8 :=
  (List.range' 0x30 10 ++ List.range' 0x61 6 ++ List.range' 0x30 10 ++ List.range' 0x41 6).map
    (BitVec.ofNat 8)

def isAlpha (val : UV) : Bool :=
  (0x41 ≤ val.toNat && val.toNat ≤ 0x5A) || (0x61 ≤ val.toNat && val.toNat ≤ 0x7A)

def nibble (val : UV) : U8 :=
  (if isAlpha val then (val + 9) &&& 0xF else val &&& 0xF).setWidth 8

inductive DigitDirective where
  | B
  | b
  | H
  | h
deriving DecidableEq

def DigitDirective.kind : DigitDirective → DigitKind
  | .B =>
    { perOctet := 8
      clips := fun _ => true
      put := fun val => (val &&& 1).setWidth 8
      shift := fun bits => bits <<< 1
      finish := fun l bits => bits <<< (7 - l % 8)
      char := fun bits => if bits &&& 0x80 ≠ 0 then 0x31 else 0x30 }
  | .b =>
    { perOctet := 8
      clips := fun _ => true
      put := fun val => if val &&& 1 ≠ 0 then 0x80 else 0
      shift := fun bits => bits >>> 1
      finish := fun l bits => bits >>> (7 - l % 8)
      char := fun bits => if bits &&& 1 ≠ 0 then 0x31 else 0x30 }
  | .H =>
    { perOctet := 2
      clips := fun utf8Source => !utf8Source
      put := nibble
      shift := fun bits => bits <<< 4
      finish := fun _ bits => bits
      char := fun bits => hexdigit.getD (bits >>> 4 &&& 15).toNat 0 }
  | .h =>
    { perOctet := 2
      clips := fun utf8Source => !utf8Source
      put := fun val => nibble val <<< 4
      shift := fun bits => bits >>> 4
      finish := fun _ bits => bits
      char := fun bits => hexdigit.getD (bits &&& 15).toNat 0 }

inductive DigitCroak where
  | malformedString
  | decoder (croak : XPerl.Utf8.Croak)
deriving DecidableEq

/-- The next character: an octet, or `NEXT_UNI_VAL`, which leaves 0 at the end of the string. -/
def nextVal (flags : U32) (utf8Source : Bool) (str : List U8) :
    Except DigitCroak (UV × List U8) :=
  if utf8Source then
    if str = [] then .ok (0, [])
    else
      match utf8ToUvMsgs str flags with
      | .error croak => .error (.decoder croak)
      | .ok d => if d.success then .ok (d.cp, str.drop d.advance) else .error .malformedString
  else .ok ((str.headD 0).setWidth 64, str.tail)

/-- The loop over the digits; `l` counts those that have been taken. -/
def packDigitsLoop (kind : DigitKind) (flags : U32) (utf8Source : Bool) :
    Nat → Nat → U8 → List U8 → Except DigitCroak (List U8)
  | 0, l, bits, _ => .ok (if l % kind.perOctet ≠ 0 then [kind.finish l bits] else [])
  | n + 1, l, bits, str =>
    match nextVal flags utf8Source str with
    | .error croak => .error croak
    | .ok (val, str) =>
      let bits := bits ||| kind.put val
      if (l + 1) % kind.perOctet ≠ 0 then
        packDigitsLoop kind flags utf8Source n (l + 1) (kind.shift bits) str
      else (packDigitsLoop kind flags utf8Source n (l + 1) 0 str).map (bits :: ·)

/-- `pack` of `B`, `b`, `H` and `h`; a count of `*` is none. -/
def packDigits (kind : DigitKind) (flags : U32) (howlen : Option Nat) (fromstr : Source) :
    Except DigitCroak (List U8) :=
  let fromlen := fromstr.pv.length
  let len := howlen.getD fromlen
  let fieldLen := (len + (kind.perOctet - 1)) / kind.perOctet
  let len := if kind.clips fromstr.utf8 ∧ fromlen < len then fromlen else len
  let left := if howlen = none then 0
    else fieldLen - (len + (kind.perOctet - 1)) / kind.perOctet
  (packDigitsLoop kind flags fromstr.utf8 len 0 0 fromstr.pv).map (· ++ List.replicate left 0)

def unpackDigitsLoop (kind : DigitKind) : Nat → Nat → U8 → List U8 → List U8 × List U8
  | 0, _, _, s => ([], s)
  | n + 1, l, bits, s =>
    let (bits, s) := if l % kind.perOctet ≠ 0 then (kind.shift bits, s) else (s.headD 0, s.tail)
    let (str, s) := unpackDigitsLoop kind n (l + 1) bits s
    (kind.char bits :: str, s)

/-- `unpack` of `B`, `b`, `H` and `h`; a count of `*` is none. -/
def unpackDigits (kind : DigitKind) (howlen : Option Nat) (s : List U8) : List U8 × List U8 :=
  let most := s.length * kind.perOctet
  let len := match howlen with
    | none => most
    | some len => if most < len then most else len
  unpackDigitsLoop kind len 0 0 s

section Octets

variable {kind : DigitKind} {d : DigitDirective} {flags : U32} {utf8Source : Bool}

def DigitKind.gather (kind : DigitKind) : Nat → U8 → List U8 → U8
  | l, bits, [] => kind.finish l bits
  | l, bits, c :: ds =>
    let bits := bits ||| kind.put (c.setWidth 64)
    if (l + 1) % kind.perOctet ≠ 0 then kind.gather (l + 1) (kind.shift bits) ds else bits

def DigitKind.spread (kind : DigitKind) (o : U8) : List U8 :=
  (List.iterate kind.shift o kind.perOctet).map kind.char

/-- The characters that are digits for a directive. -/
def DigitDirective.digits : DigitDirective → List U8
  | .B | .b => [0x30, 0x31]
  | .H | .h => hexdigit

/-- How a digit comes back. -/
def DigitDirective.canon : DigitDirective → U8 → U8
  | .B, c | .b, c => c
  | .H, c | .h, c => if isAlpha (c.setWidth 64) then c ||| 0x20 else c

theorem DigitDirective.perOctet_cases (d : DigitDirective) :
    d.kind.perOctet = 2 ∨ d.kind.perOctet = 8 := by
  cases d <;> simp [kind]

theorem DigitDirective.digit_lt (h : c ∈ d.digits) : c.toNat < 0x80 := by
  have hall : ∀ c ∈ d.digits, c.toNat < 0x80 := by
    cases d <;> decide
  exact hall c h

theorem mem_sections_replicate {α : Type} {xs : List α} {as : List α} (h : ∀ a ∈ as, a ∈ xs) :
    as ∈ (List.replicate as.length xs).sections := by
  rw [List.mem_sections]
  induction as with
  | nil => exact .nil
  | cons a as ih =>
    obtain ⟨ha, has⟩ := List.forall_mem_cons.1 h
    exact .cons ha (ih has)

theorem DigitDirective.spread_gather (h : ∀ c ∈ ds, c ∈ d.digits) (hpos : 0 < ds.length)
    (hle : ds.length ≤ d.kind.perOctet) :
    d.kind.spread (d.kind.gather 0 0 ds) =
      ds.map d.canon ++ List.replicate (d.kind.perOctet - ds.length) 0x30 := by
  have hall : ∀ k < d.kind.perOctet, ∀ ds ∈ (List.replicate (k + 1) d.digits).sections,
      d.kind.spread (d.kind.gather 0 0 ds) =
        ds.map d.canon ++ List.replicate (d.kind.perOctet - (k + 1)) 0x30 := by
    cases d <;> decide +kernel
  obtain ⟨k, hk⟩ : ∃ k, ds.length = k + 1 := ⟨ds.length - 1, by omega⟩
  rw [hk]
  exact hall k (by omega) ds (hk ▸ mem_sections_replicate h)

theorem DigitDirective.gather_mod (d : DigitDirective) (l : Nat) (bits : U8) (ds : List U8) :
    d.kind.gather l bits ds = d.kind.gather (l % d.kind.perOctet) bits ds := by
  induction ds generalizing l bits with
  | nil => cases d <;> simp [DigitKind.gather, kind]
  | cons c ds ih =>
    rw [DigitKind.gather, DigitKind.gather, Nat.mod_add_mod]
    split_ifs
    · rw [ih (l + 1), ih (l % d.kind.perOctet + 1), Nat.mod_add_mod]
    · rfl

end Octets

section Loops

variable {kind : DigitKind} {d : DigitDirective} (flags : U32) (utf8Source : Bool)

theorem nextVal_ascii (h : c.toNat < 0x80) (s : List U8) :
    nextVal flags utf8Source (c :: s) = .ok (c.setWidth 64, s) := by
  cases utf8Source with
  | false => rfl
  | true =>
    have hinvariant : XPerl.Utf8.isInvariant c = true := by
      revert c
      decide +kernel
    have hdecode : utf8ToUvMsgs (c :: s) flags = .ok ⟨true, c.setWidth 64, 1, 0⟩ :=
      if_pos hinvariant
    rw [nextVal, if_pos rfl, if_neg (List.cons_ne_nil c s), hdecode]
    rfl

theorem mod_succ (h : l % m + 1 < m) : (l + 1) % m = l % m + 1 := by
  rw [← Nat.mod_add_mod, Nat.mod_eq_of_lt h]

theorem packDigitsLoop_full (h : ∀ c ∈ ds, c.toNat < 0x80) (hne : ds ≠ [])
    (hfull : l % kind.perOctet + ds.length = kind.perOctet) (bits : U8) (rest : List U8) :
    packDigitsLoop kind flags utf8Source (ds.length + n) l bits (ds ++ rest) =
      (packDigitsLoop kind flags utf8Source n (l + ds.length) 0 rest).map
        (kind.gather l bits ds :: ·) := by
  induction ds generalizing l bits with
  | nil => exact absurd rfl hne
  | cons c ds ih =>
    obtain ⟨hc, hds⟩ := List.forall_mem_cons.1 h
    rw [List.length_cons] at hfull
    rw [List.length_cons, show ds.length + 1 + n = ds.length + n + 1 by omega, List.cons_append,
      packDigitsLoop, nextVal_ascii flags utf8Source hc, DigitKind.gather]
    dsimp only
    rcases ds with _ | ⟨c', ds⟩
    · have hlast : (l + 1) % kind.perOctet = 0 := by
        rw [← Nat.mod_add_mod]
        rw [List.length_nil, Nat.zero_add] at hfull
        rw [hfull, Nat.mod_self]
      rw [if_neg (not_not.2 hlast), if_neg (not_not.2 hlast), List.length_nil, Nat.zero_add]
      rfl
    · rw [List.length_cons] at hfull
      have hmod := mod_succ (show l % kind.perOctet + 1 < kind.perOctet by omega)
      rw [if_pos (by omega), if_pos (by omega), ih hds (by simp) (by
        rw [List.length_cons]
        omega), List.length_cons, show l + (ds.length + 1 + 1) = l + 1 + (ds.length + 1) by omega]

theorem packDigitsLoop_rest (h : ∀ c ∈ ds, c.toNat < 0x80)
    (hrest : l % kind.perOctet + ds.length < kind.perOctet) (bits : U8) :
    packDigitsLoop kind flags utf8Source ds.length l bits ds =
      .ok (if (l + ds.length) % kind.perOctet ≠ 0 then [kind.gather l bits ds] else []) := by
  induction ds generalizing l bits with
  | nil => rfl
  | cons c ds ih =>
    obtain ⟨hc, hds⟩ := List.forall_mem_cons.1 h
    rw [List.length_cons] at hrest
    have hmod := mod_succ (show l % kind.perOctet + 1 < kind.perOctet by omega)
    rw [List.length_cons, packDigitsLoop, nextVal_ascii flags utf8Source hc, DigitKind.gather]
    dsimp only
    have hmore : (l + 1) % kind.perOctet ≠ 0 := by omega
    rw [if_pos hmore, if_pos hmore, ih hds (by omega),
      show l + (ds.length + 1) = l + 1 + ds.length by omega]

theorem packDigitsLoop_spec (h : ∀ c ∈ ds, c ∈ d.digits) (hl : l % d.kind.perOctet = 0) :
    ∃ octets, packDigitsLoop d.kind flags utf8Source ds.length l 0 ds = .ok octets ∧
      octets.flatMap d.kind.spread =
        ds.map d.canon ++
          List.replicate ((d.kind.perOctet - ds.length % d.kind.perOctet) % d.kind.perOctet) 0x30 := by
  have hper := d.perOctet_cases
  induction hn : ds.length using Nat.strong_induction_on generalizing ds l with
  | _ n ih =>
    subst hn
    by_cases hlong : d.kind.perOctet ≤ ds.length
    · have hsplit := List.take_append_drop d.kind.perOctet ds
      have hfirst : (ds.take d.kind.perOctet).length = d.kind.perOctet := by
        rw [List.length_take]
        omega
      have hdigits : ∀ c ∈ ds.take d.kind.perOctet, c ∈ d.digits := fun c hc =>
        h c (List.mem_of_mem_take hc)
      have hrest : (ds.drop d.kind.perOctet).length = ds.length - d.kind.perOctet :=
        List.length_drop
      obtain ⟨octets, hrun, hspread⟩ := ih (ds.drop d.kind.perOctet).length (by omega)
        (fun c hc => h c (List.mem_of_mem_drop hc))
        (show (l + d.kind.perOctet) % d.kind.perOctet = 0 by rw [Nat.add_mod_right, hl]) rfl
      have hfull := packDigitsLoop_full flags utf8Source (n := (ds.drop d.kind.perOctet).length)
        (l := l) (fun c hc => d.digit_lt (hdigits c hc)) (List.ne_nil_of_length_pos (by omega))
        (by rw [hl, hfirst, Nat.zero_add]) 0 (ds.drop d.kind.perOctet)
      rw [hsplit, hfirst, hrun, hrest, Nat.add_sub_cancel' hlong, d.gather_mod, hl] at hfull
      refine ⟨_, hfull, ?_⟩
      have hgather := d.spread_gather hdigits (by omega) (Nat.le_of_eq hfirst)
      rw [List.flatMap_cons, hspread, hgather, hfirst, Nat.sub_self, List.replicate_zero,
        List.append_nil, ← List.append_assoc, ← List.map_append, hsplit, hrest,
        ← Nat.mod_eq_sub_mod hlong]
    · have hrest := packDigitsLoop_rest flags utf8Source (l := l)
        (fun c hc => d.digit_lt (h c hc)) (show l % d.kind.perOctet + ds.length < _ by omega) 0
      have hmod : (l + ds.length) % d.kind.perOctet = ds.length := by
        rw [← Nat.mod_add_mod, hl, Nat.zero_add, Nat.mod_eq_of_lt (by omega)]
      refine ⟨_, hrest, ?_⟩
      rw [hmod, d.gather_mod, hl, Nat.mod_eq_of_lt (Nat.not_le.1 hlong)]
      by_cases hnil : ds = []
      · subst hnil
        simp
      · have hpos := List.length_pos_of_ne_nil hnil
        rw [if_pos (by omega), List.flatMap_singleton, d.spread_gather h hpos (by omega),
          Nat.mod_eq_of_lt (by omega)]

theorem unpackDigitsLoop_bits (kind : DigitKind) (hl : l % kind.perOctet = 0) (n : Nat)
    (bits bits' : U8) (s : List U8) :
    unpackDigitsLoop kind n l bits s = unpackDigitsLoop kind n l bits' s := by
  cases n with
  | zero => rfl
  | succ n => rw [unpackDigitsLoop, unpackDigitsLoop, if_neg (not_not.2 hl), if_neg (not_not.2 hl)]

theorem unpackDigitsLoop_within (kind : DigitKind) (hl : 0 < l % kind.perOctet) (k n : Nat)
    (hk : l % kind.perOctet + k = kind.perOctet) (bits : U8) (s : List U8) :
    unpackDigitsLoop kind (k + n) l bits s =
      ((List.iterate kind.shift (kind.shift bits) k).map kind.char ++
          (unpackDigitsLoop kind n (l + k) 0 s).1,
        (unpackDigitsLoop kind n (l + k) 0 s).2) := by
  induction k generalizing l bits with
  | zero =>
    have hlt := Nat.mod_lt l (show 0 < kind.perOctet by omega)
    omega
  | succ k ih =>
    rw [show k + 1 + n = k + n + 1 by omega, unpackDigitsLoop, if_pos (by omega)]
    dsimp only
    rcases Nat.eq_zero_or_pos k with rfl | hpos
    · have hlast : (l + 1) % kind.perOctet = 0 := by
        rw [← Nat.mod_add_mod, show l % kind.perOctet + 1 = kind.perOctet by omega, Nat.mod_self]
      rw [Nat.zero_add, unpackDigitsLoop_bits kind hlast n _ 0]
      rfl
    · have hmod := mod_succ (show l % kind.perOctet + 1 < kind.perOctet by omega)
      rw [ih (by omega) (by omega), show l + 1 + k = l + (k + 1) by omega]
      rfl

theorem unpackDigitsLoop_octet (kind : DigitKind) (hper : 1 < kind.perOctet)
    (hl : l % kind.perOctet = 0) (n : Nat) (bits o : U8) (s : List U8) :
    unpackDigitsLoop kind (kind.perOctet + n) l bits (o :: s) =
      (kind.spread o ++ (unpackDigitsLoop kind n (l + kind.perOctet) 0 s).1,
        (unpackDigitsLoop kind n (l + kind.perOctet) 0 s).2) := by
  obtain ⟨k, hk⟩ : ∃ k, kind.perOctet = k + 1 := ⟨kind.perOctet - 1, by omega⟩
  have hmod := mod_succ (show l % kind.perOctet + 1 < kind.perOctet by omega)
  have hwithin := unpackDigitsLoop_within kind (l := l + 1) (by omega) k n (by omega) o s
  rw [show l + 1 + k = l + kind.perOctet by omega] at hwithin
  rw [show kind.perOctet + n = k + n + 1 by omega, unpackDigitsLoop, if_neg (not_not.2 hl)]
  dsimp only [List.headD_cons, List.tail_cons]
  rw [hwithin, DigitKind.spread, hk]
  rfl

theorem unpackDigits_star (kind : DigitKind) (hper : 1 < kind.perOctet) (octets : List U8) :
    unpackDigits kind none octets = (octets.flatMap kind.spread, []) := by
  have hloop (l : Nat) (hl : l % kind.perOctet = 0) :
      unpackDigitsLoop kind (octets.length * kind.perOctet) l 0 octets =
        (octets.flatMap kind.spread, []) := by
    induction octets generalizing l with
    | nil =>
      rw [List.length_nil, Nat.zero_mul]
      rfl
    | cons o octets ih =>
      rw [List.length_cons, Nat.succ_mul, Nat.add_comm, unpackDigitsLoop_octet kind hper hl,
        ih _ (by rw [Nat.add_mod_right, hl])]
      rfl
  exact hloop 0 (Nat.zero_mod _)

end Loops

section RoundTrips

variable {d : DigitDirective} {fromstr : Source}

/-- Text encodings and their way back: uuencoded octets, with nothing for no octets, and strings
of digits, in lower case and with zeros up to a whole octet. -/
theorem text_encodings (order : ByteOrder) (address : Nat) (flags : U32) (count : Nat)
    (utf8Source : Bool) (h : fromstr.Holds bytes) (hdigits : ∀ c ∈ ds, c ∈ d.digits) :
    (∃ groups, groups.flatten = bytes ∧ Lines (lineLength count) groups ∧
      (∀ g ∈ groups, (doencodes g).length ≤ hunkSize ∧ 0x0A ∉ (doencodes g).dropLast) ∧
      packU order address flags count fromstr = .ok (groups.flatMap doencodes) ∧
      (groups.flatMap doencodes).length = growing bytes.length (lineLength count) ∧
      unpackU (groups.flatMap doencodes) = (if bytes = [] then none else some bytes, [])) ∧
    lineLength count = (if count ≤ 2 then 45 else min 63 (count / 3 * 3)) ∧
    ∃ octets, packDigits d.kind flags none ⟨ds, utf8Source⟩ = .ok octets ∧
      unpackDigits d.kind none octets =
        (ds.map d.canon ++
          List.replicate ((d.kind.perOctet - ds.length % d.kind.perOctet) % d.kind.perOctet) 0x30,
          []) := by
  obtain ⟨octets, hrun, hspread⟩ := packDigitsLoop_spec flags utf8Source hdigits (l := 0) (by simp)
  refine ⟨packU_spec order address flags count h, lineLength_eq count, octets, ?_, ?_⟩
  · have hclip : (if d.kind.clips utf8Source ∧ ds.length < ds.length then ds.length
        else ds.length) = ds.length := by simp
    rw [packDigits]
    dsimp only [Option.getD_none]
    rw [hclip, hrun, if_pos rfl, List.replicate_zero]
    simp [Except.map]
  · have hper := d.perOctet_cases
    rw [unpackDigits_star _ (by omega), hspread]

/-- Four octets that are upgraded, and three hex digits. -/
theorem text_encodings_four :
    (∃ groups, groups.flatten = [0x61, 0xE9, 0x00, 0xFF] ∧ Lines (lineLength 3) groups ∧
      (∀ g ∈ groups, (doencodes g).length ≤ hunkSize ∧ 0x0A ∉ (doencodes g).dropLast) ∧
      packU .little 0 0 3 ⟨upgrade [0x61, 0xE9, 0x00, 0xFF], true⟩ =
        .ok (groups.flatMap doencodes) ∧
      (groups.flatMap doencodes).length =
        growing ([0x61, 0xE9, 0x00, 0xFF] : List U8).length (lineLength 3) ∧
      unpackU (groups.flatMap doencodes) =
        (if ([0x61, 0xE9, 0x00, 0xFF] : List U8) = [] then none
          else some [0x61, 0xE9, 0x00, 0xFF], [])) ∧
    lineLength 3 = (if 3 ≤ 2 then 45 else min 63 (3 / 3 * 3)) ∧
    ∃ octets, packDigits DigitDirective.H.kind 0 none ⟨[0x34, 0x42, 0x63], false⟩ = .ok octets ∧
      unpackDigits DigitDirective.H.kind none octets =
        (([0x34, 0x42, 0x63] : List U8).map DigitDirective.H.canon ++ List.replicate
          ((DigitDirective.H.kind.perOctet -
            ([0x34, 0x42, 0x63] : List U8).length % DigitDirective.H.kind.perOctet) %
              DigitDirective.H.kind.perOctet) 0x30, []) :=
  text_encodings .little 0 0 3 false rfl (by decide)

/-- Nothing comes back as no value, and a digit in upper case in lower case. -/
theorem text_encodings_fail :
    packU .little 0 0 45 ⟨[], false⟩ = .ok [] ∧ unpackU [] = (none, []) ∧
      0x41 ∈ DigitDirective.H.digits ∧
      packDigits DigitDirective.H.kind 0 none ⟨[0x41, 0x30], false⟩ = .ok [0xA0] ∧
      unpackDigits DigitDirective.H.kind none [0xA0] = ([0x61, 0x30], []) := by
  decide +kernel

end RoundTrips

end XPerl.Pack
