import Mathlib.Data.List.Induction
import XPerl.Framework.Odometer

/-! The increment of a string of letters and digits, on the bytes of its buffer. -/

namespace XPerl.StringOps

open XPerl.Framework.Odometer

variable {text text' letters digits rest : List UInt8} {slack : Nat} {junk c : UInt8}

def isDIGIT (c : UInt8) : Bool := 0x30 ≤ c && c ≤ 0x39

def isUPPER (c : UInt8) : Bool := 0x41 ≤ c && c ≤ 0x5A

def isLOWER (c : UInt8) : Bool := 0x61 ≤ c && c ≤ 0x7A

def isALPHA (c : UInt8) : Bool := isUPPER c || isLOWER c

/-- A scalar's string: its buffer of `SvLEN` bytes and `SvCUR`. -/
structure Pv where
  buf : List UInt8
  cur : Nat
deriving DecidableEq

/-- What the increment makes of a scalar: a string, an integer, or one more than the number that
the string starts with. -/
inductive Incremented where
  | string (pv : Pv)
  | integer (iv : Nat)
  | number (text : List UInt8)
deriving DecidableEq

/-- `while (p(*d)) d++;`, with none where it leaves the buffer. -/
def skipWhile (p : UInt8 → Bool) (buf : List UInt8) (d : Nat) : Option Nat :=
  ((buf.drop d).findIdx? fun c => !p c).map (d + ·)

def carryLoop : Nat → List UInt8 → Option (Bool × List UInt8)
  | 0, buf => some (true, buf)
  | d + 1, buf => do
    let c ← buf[d]?
    let buf := buf.set d (c + 1)
    if isDIGIT c then
      if c + 1 ≤ 0x39 then some (false, buf) else carryLoop d (buf.set d 0x30)
    else if isALPHA (c + 1) then some (false, buf)
    else carryLoop d (buf.set d (c + 1 - (0x7A - 0x61 + 1)))

def shiftLoop : Nat → List UInt8 → Option (List UInt8)
  | 0, buf => some buf
  | d + 1, buf => do
    let c ← buf[d]?
    if d + 1 < buf.length then shiftLoop d (buf.set (d + 1) c) else none

/-- `SvGROW`; new memory holds junk, and may be more than was asked for. -/
def svGrow (slack : Nat) (junk : UInt8) (buf : List UInt8) (n : Nat) : List UInt8 :=
  if buf.length < n then buf ++ List.replicate (n - buf.length + slack) junk else buf

/-- `sv_inc_nomg` on a string without numeric flags; none where it leaves the buffer. -/
def svIncNomg (slack : Nat) (junk : UInt8) (pv : Pv) : Option Incremented := do
  let first ← pv.buf[0]?
  if first = 0 then return .integer 1
  let d ← skipWhile isALPHA pv.buf 0
  let d ← skipWhile isDIGIT pv.buf d
  if d < pv.cur then return .number (pv.buf.take pv.cur)
  let (grew, buf) ← carryLoop d pv.buf
  if ¬ grew then return .string ⟨buf, pv.cur⟩
  let buf ← shiftLoop (pv.cur + 1) (svGrow slack junk buf (pv.cur + 2))
  let second ← buf[1]?
  return .string ⟨buf.set 0 (if isDIGIT second then 0x31 else second), pv.cur + 1⟩

/-- The string of a buffer, with the NUL behind it. -/
def Pv.Holds (pv : Pv) (text : List UInt8) : Prop :=
  ∃ rest, pv.buf = text ++ 0 :: rest ∧ pv.cur = text.length

inductive Kind where
  | digit
  | upper
  | lower
deriving DecidableEq

def Kind.radix : Kind → Nat
  | .digit => 10
  | .upper | .lower => 26

def Kind.first : Kind → UInt8
  | .digit => 0x30
  | .upper => 0x41
  | .lower => 0x61

def kindOf (c : UInt8) : Kind := if isDIGIT c then .digit else if isUPPER c then .upper else .lower

theorem Kind.radix_pos (k : Kind) : 0 < k.radix := by
  cases k <;> decide

def wheelOf (c : UInt8) : Wheel Kind.radix :=
  ⟨kindOf c, (c - (kindOf c).first).toNat % (kindOf c).radix, Nat.mod_lt _ (kindOf c).radix_pos⟩

def charOf (w : Wheel Kind.radix) : UInt8 := w.kind.first + UInt8.ofNat w.digit

theorem charOf_wheelOf (h : isALPHA c = true ∨ isDIGIT c = true) : charOf (wheelOf c) = c := by
  have hall : ∀ n < 256, isALPHA (UInt8.ofNat n) = true ∨ isDIGIT (UInt8.ofNat n) = true →
      charOf (wheelOf (UInt8.ofNat n)) = UInt8.ofNat n := by decide +kernel
  have hc := hall c.toNat c.toNat_lt
  rw [UInt8.ofNat_toNat] at hc
  exact hc h

theorem charOf_facts (w : Wheel Kind.radix) :
    wheelOf (charOf w) = w ∧ isDIGIT (charOf w) = decide (w.kind = .digit) ∧
      isALPHA (charOf w) = decide (w.kind ≠ .digit) ∧
      (w.kind = .digit → decide (charOf w + 1 ≤ 0x39) = decide (w.digit + 1 < w.kind.radix)) ∧
      (w.kind ≠ .digit → isALPHA (charOf w + 1) = decide (w.digit + 1 < w.kind.radix) ∧
        (w.digit + 1 = w.kind.radix → charOf w + 1 - (0x7A - 0x61 + 1) = charOf w.zero)) := by
  obtain ⟨kind, digit, hlt⟩ := w
  have hwheel {v : Wheel Kind.radix} {n : Nat} {h : n < kind.radix} (hkind : v.kind = kind)
      (hdigit : v.digit = n) : v = ⟨kind, n, h⟩ := Wheel.ext hkind hdigit
  cases kind with
  | digit =>
    have hall : ∀ n < 10, (wheelOf (0x30 + UInt8.ofNat n)).kind = .digit ∧
        (wheelOf (0x30 + UInt8.ofNat n)).digit = n ∧ isDIGIT (0x30 + UInt8.ofNat n) = true ∧
        isALPHA (0x30 + UInt8.ofNat n) = false ∧
        decide ((0x30 : UInt8) + UInt8.ofNat n + 1 ≤ 0x39) = decide (n + 1 < 10) := by decide
    obtain ⟨hkind, hdigit, hisDigit, hisAlpha, hnext⟩ := hall digit hlt
    exact ⟨hwheel hkind hdigit, hisDigit, hisAlpha, fun _ => hnext, fun hne => absurd rfl hne⟩
  | upper =>
    have hall : ∀ n < 26, (wheelOf (0x41 + UInt8.ofNat n)).kind = .upper ∧
        (wheelOf (0x41 + UInt8.ofNat n)).digit = n ∧ isDIGIT (0x41 + UInt8.ofNat n) = false ∧
        isALPHA (0x41 + UInt8.ofNat n) = true ∧
        isALPHA (0x41 + UInt8.ofNat n + 1) = decide (n + 1 < 26) ∧
        (n + 1 = 26 → (0x41 : UInt8) + UInt8.ofNat n + 1 - (0x7A - 0x61 + 1) = 0x41) := by decide
    obtain ⟨hkind, hdigit, hisDigit, hisAlpha, hnext⟩ := hall digit hlt
    exact ⟨hwheel hkind hdigit, hisDigit, hisAlpha, nofun, fun _ => hnext⟩
  | lower =>
    have hall : ∀ n < 26, (wheelOf (0x61 + UInt8.ofNat n)).kind = .lower ∧
        (wheelOf (0x61 + UInt8.ofNat n)).digit = n ∧ isDIGIT (0x61 + UInt8.ofNat n) = false ∧
        isALPHA (0x61 + UInt8.ofNat n) = true ∧
        isALPHA (0x61 + UInt8.ofNat n + 1) = decide (n + 1 < 26) ∧
        (n + 1 = 26 → (0x61 : UInt8) + UInt8.ofNat n + 1 - (0x7A - 0x61 + 1) = 0x61) := by decide
    obtain ⟨hkind, hdigit, hisDigit, hisAlpha, hnext⟩ := hall digit hlt
    exact ⟨hwheel hkind hdigit, hisDigit, hisAlpha, nofun, fun _ => hnext⟩

theorem charOf_next {w : Wheel Kind.radix} (h : w.digit + 1 < w.kind.radix) :
    charOf w + 1 = charOf (w.next h) := by
  simp [charOf, UInt8.add_assoc, Wheel.next, UInt8.ofNat_add]

section Memory

variable {ws : List (Wheel Kind.radix)} {p : UInt8 → Bool}

theorem skipWhile_spec (pre : List UInt8) {xs : List UInt8} {stop : UInt8}
    (rest : List UInt8) (hxs : ∀ c ∈ xs, p c = true)
    (hstop : p stop = false) :
    skipWhile p (pre ++ xs ++ stop :: rest) pre.length = some (pre.length + xs.length) := by
  have hfind : (xs ++ stop :: rest).findIdx? (fun c => !p c) = some xs.length := by
    induction xs with
    | nil => simp [List.findIdx?_cons, hstop]
    | cons x xs ih =>
      rw [List.cons_append, List.findIdx?_cons, if_neg (by simp [hxs x List.mem_cons_self]),
        ih fun c hc => hxs c (List.mem_cons_of_mem x hc)]
      rfl
  rw [skipWhile, List.append_assoc, List.drop_left, hfind]
  rfl

theorem carryLoop_spec (ws : List (Wheel Kind.radix)) (rest : List UInt8) :
    carryLoop ws.length (ws.map charOf ++ rest) =
      some ((turn ws).1, (turn ws).2.map charOf ++ rest) := by
  induction ws using List.reverseRecOn generalizing rest with
  | nil => rfl
  | append_singleton ws w ih =>
    obtain ⟨-, hdigit, -, hnine, hletter⟩ := charOf_facts w
    have hget : ((ws ++ [w]).map charOf ++ rest)[ws.length]? = some (charOf w) := by
      simp
    have hset (c d : UInt8) : (ws.map charOf ++ c :: rest).set ws.length d =
        ws.map charOf ++ d :: rest := by
      rw [List.set_append_right _ _ (by simp)]
      simp
    rw [List.length_append, List.length_singleton, carryLoop, hget, Option.bind_eq_bind,
      Option.bind_some, turn_concat]
    rw [List.map_append, List.map_singleton, List.append_assoc, List.singleton_append, hset]
    dsimp only
    rw [hset, hset, hdigit]
    by_cases hkind : w.kind = .digit
    · by_cases hnext : w.digit + 1 < w.kind.radix
      · rw [if_pos (by simpa using hkind), if_pos (by simpa [hnext] using hnine hkind),
          dif_pos hnext, charOf_next hnext]
        simp
      · rw [if_pos (by simpa using hkind), if_neg (by simpa [hnext] using hnine hkind),
          dif_neg hnext, ih]
        simp [charOf, hkind, Kind.first]
    · obtain ⟨hmore, hwrap⟩ := hletter hkind
      by_cases hnext : w.digit + 1 < w.kind.radix
      · rw [if_neg (by simpa using hkind), if_pos (by simpa [hnext] using hmore),
          dif_pos hnext, charOf_next hnext]
        simp
      · have hlt := w.lt
        rw [if_neg (by simpa using hkind), if_neg (by simpa [hnext] using hmore),
          dif_neg hnext, hwrap (by omega), ih]
        simp

theorem shiftLoop_spec (first behind : UInt8) (xs rest : List UInt8) :
    shiftLoop (xs.length + 1) (first :: xs ++ behind :: rest) =
      some (first :: first :: xs ++ rest) := by
  induction xs using List.reverseRecOn generalizing behind rest with
  | nil => simp [shiftLoop]
  | append_singleton xs x ih =>
    have hget : (first :: (xs ++ [x]) ++ behind :: rest)[xs.length + 1]? = some x := by
      simp
    have hset : (first :: (xs ++ [x]) ++ behind :: rest).set (xs.length + 1 + 1) x =
        first :: xs ++ x :: (x :: rest) := by
      rw [List.set_append_right _ _ (by simp)]
      simp
    rw [List.length_append, List.length_singleton, shiftLoop, hget, Option.bind_eq_bind,
      Option.bind_some, if_pos (by simp), hset, ih]
    simp

end Memory

/-- Letters followed by digits. -/
def Shaped (text : List UInt8) : Prop :=
  ∃ letters digits, text = letters ++ digits ∧ (∀ c ∈ letters, isALPHA c = true) ∧
    ∀ c ∈ digits, isDIGIT c = true

/-- The number that a string shows, each character being a digit of its class. -/
def radixValue (text : List UInt8) : Nat := value (text.map wheelOf)

/-- The strings of the same classes. -/
def radixVolume (text : List UInt8) : Nat := volume (text.map wheelOf)

/-- What a string that has grown starts with. -/
def pushed (c : UInt8) : UInt8 := if isDIGIT c then 0x31 else (kindOf c).first

def successor (text : List UInt8) : List UInt8 :=
  let (grew, ws) := turn (text.map wheelOf)
  if grew then (text.take 1).map pushed ++ ws.map charOf else ws.map charOf

theorem Shaped.alnum (h : Shaped text) : ∀ c ∈ text, isALPHA c = true ∨ isDIGIT c = true := by
  obtain ⟨letters, digits, rfl, hletters, hdigits⟩ := h
  intro c hc
  rcases List.mem_append.1 hc with hc | hc
  · exact .inl (hletters c hc)
  · exact .inr (hdigits c hc)

theorem Shaped.map_charOf (h : Shaped text) : (text.map wheelOf).map charOf = text := by
  rw [List.map_map]
  exact (List.map_congr_left fun c hc => charOf_wheelOf (h.alnum c hc)).trans (List.map_id text)

@[simp] theorem map_wheelOf (ws : List (Wheel Kind.radix)) : (ws.map charOf).map wheelOf = ws := by
  rw [List.map_map]
  exact (List.map_congr_left fun w _ => (charOf_facts w).1).trans (List.map_id ws)

theorem kindOf_wheelOf (c : UInt8) : (wheelOf c).kind = kindOf c := rfl

theorem kindOf_charOf (w : Wheel Kind.radix) : kindOf (charOf w) = w.kind := by
  rw [← kindOf_wheelOf, (charOf_facts w).1]

theorem kinds_wheelOf (text : List UInt8) : kinds (text.map wheelOf) = text.map kindOf := by
  simp [kinds, kindOf_wheelOf]

theorem kindOf_eq_digit : kindOf c = .digit ↔ isDIGIT c = true := by
  rw [kindOf]
  split_ifs with hdigit hupper <;> simp [hdigit]

theorem alpha_not_digit (h : isALPHA c = true) : isDIGIT c = false := by
  have hall : ∀ n < 256, isALPHA (UInt8.ofNat n) = true → isDIGIT (UInt8.ofNat n) = false := by
    decide +kernel
  have hc := hall c.toNat c.toNat_lt
  rw [UInt8.ofNat_toNat] at hc
  exact hc h

theorem shaped_iff : Shaped text ↔ (∀ c ∈ text, isALPHA c = true ∨ isDIGIT c = true) ∧
    (text.map kindOf).Pairwise fun k l => k = .digit → l = .digit := by
  constructor
  · intro h
    refine ⟨h.alnum, ?_⟩
    obtain ⟨letters, digits, rfl, hletters, hdigits⟩ := h
    rw [List.map_append, List.pairwise_append]
    refine ⟨?_, ?_, ?_⟩
    · rw [List.pairwise_map]
      refine List.pairwise_of_forall_mem_list fun c hc d _ hdigit => ?_
      rw [kindOf_eq_digit, alpha_not_digit (hletters c hc)] at hdigit
      cases hdigit
    · rw [List.pairwise_map]
      exact List.pairwise_of_forall_mem_list fun c _ d hd _ => kindOf_eq_digit.2 (hdigits d hd)
    · simp only [List.mem_map]
      rintro _ - _ ⟨d, hd, rfl⟩ -
      exact kindOf_eq_digit.2 (hdigits d hd)
  · rintro ⟨halnum, hkinds⟩
    induction text with
    | nil => exact ⟨[], [], rfl, by simp⟩
    | cons c text ih =>
      rw [List.map_cons, List.pairwise_cons] at hkinds
      by_cases hdigit : isDIGIT c = true
      · refine ⟨[], c :: text, rfl, by simp, fun d hd => ?_⟩
        rcases List.mem_cons.1 hd with rfl | hd
        · exact hdigit
        · exact kindOf_eq_digit.1
            (hkinds.1 _ (List.mem_map_of_mem hd) (kindOf_eq_digit.2 hdigit))
      · obtain ⟨letters, digits, rfl, hletters, hdigits⟩ :=
          ih (fun d hd => halnum d (List.mem_cons_of_mem c hd)) hkinds.2
        refine ⟨c :: letters, digits, rfl, fun d hd => ?_, hdigits⟩
        rcases List.mem_cons.1 hd with rfl | hd
        · exact (halnum d List.mem_cons_self).resolve_right hdigit
        · exact hletters d hd

/-- What a string of letters and digits is followed by. -/
structure Next (text text' : List UInt8) : Prop where
  shaped : Shaped text'
  same : radixValue text + 1 < radixVolume text →
    text'.map kindOf = text.map kindOf ∧ radixValue text' = radixValue text + 1
  longer : radixVolume text ≤ radixValue text + 1 →
    text' = (text.take 1).map pushed ++ text.map fun c => (kindOf c).first

theorem charOf_zero (w : Wheel Kind.radix) : charOf w.zero = w.kind.first := by
  simp [charOf]

theorem charOf_alnum (w : Wheel Kind.radix) :
    isALPHA (charOf w) = true ∨ isDIGIT (charOf w) = true := by
  obtain ⟨-, hdigit, halpha, -⟩ := charOf_facts w
  by_cases hkind : w.kind = .digit
  · exact .inr (by simp [hdigit, hkind])
  · exact .inl (by simp [halpha, hkind])

theorem pushed_facts (c : UInt8) :
    (isALPHA (pushed c) = true ∨ isDIGIT (pushed c) = true) ∧ kindOf (pushed c) = kindOf c := by
  rw [pushed]
  split_ifs with hdigit
  · exact ⟨by decide, (kindOf_eq_digit.2 hdigit).symm⟩
  · rw [kindOf, if_neg hdigit]
    split_ifs <;> decide

theorem successor_turned (h : (turn (text.map wheelOf)).1 = false) :
    successor text = (turn (text.map wheelOf)).2.map charOf := by
  simp [successor, h]

theorem successor_grown (h : (turn (text.map wheelOf)).1 = true) :
    successor text = (text.take 1).map pushed ++ text.map fun c => (kindOf c).first := by
  simp [successor, h, (turn_carry h).2, charOf_zero, kindOf_wheelOf]

theorem kinds_turned (text : List UInt8) :
    ((turn (text.map wheelOf)).2.map charOf).map kindOf = text.map kindOf := by
  rw [← kinds_wheelOf, map_wheelOf, kinds_turn, kinds_wheelOf]

theorem kinds_first (text : List UInt8) :
    (text.map fun c => (kindOf c).first).map kindOf = text.map kindOf := by
  rw [List.map_map]
  refine List.map_congr_left fun c _ => ?_
  have hzero := kindOf_charOf (wheelOf c).zero
  rwa [charOf_zero] at hzero

theorem successor_next (h : Shaped text) : Next text (successor text) := by
  have hcarry := turn_carry_iff (text.map wheelOf)
  have hkinds := (shaped_iff.1 h).2
  cases hturn : (turn (text.map wheelOf)).1 with
  | false =>
    have hless : radixValue text + 1 < radixVolume text := by
      have hlt := value_lt (text.map wheelOf)
      rw [hturn] at hcarry
      have hne : ¬ value (text.map wheelOf) + 1 = volume (text.map wheelOf) :=
        fun heq => by cases hcarry.2 heq
      rw [radixValue, radixVolume]
      omega
    rw [successor_turned hturn]
    refine ⟨shaped_iff.2 ⟨?_, ?_⟩, fun _ => ⟨kinds_turned text, ?_⟩, fun hend => by omega⟩
    · intro c hc
      obtain ⟨w, -, rfl⟩ := List.mem_map.1 hc
      exact charOf_alnum w
    · rw [kinds_turned]
      exact hkinds
    · rw [radixValue, map_wheelOf, value_turn hturn, radixValue]
  | true =>
    have hend := hcarry.1 hturn
    rw [successor_grown hturn]
    refine ⟨shaped_iff.2 ⟨?_, ?_⟩, fun hless => ?_, fun _ => rfl⟩
    · intro c hc
      rcases List.mem_append.1 hc with hc | hc
      · obtain ⟨d, -, rfl⟩ := List.mem_map.1 hc
        exact (pushed_facts d).1
      · obtain ⟨d, -, rfl⟩ := List.mem_map.1 hc
        rw [← kindOf_wheelOf, ← charOf_zero]
        exact charOf_alnum _
    · rw [List.map_append, kinds_first]
      cases text with
      | nil => exact List.Pairwise.nil
      | cons c text =>
        rw [List.map_cons, List.pairwise_cons] at hkinds
        rw [List.take_succ_cons, List.take_zero, List.map_singleton, List.map_singleton,
          List.singleton_append, List.map_cons, (pushed_facts c).2, List.pairwise_cons,
          List.pairwise_cons]
        refine ⟨fun k hk => ?_, hkinds⟩
        rcases List.mem_cons.1 hk with rfl | hk
        · exact id
        · exact hkinds.1 k hk
    · rw [radixValue, radixVolume] at hless
      omega

theorem svGrow_spec (slack : Nat) (junk : UInt8) (zs rest : List UInt8) :
    ∃ behind rest', svGrow slack junk (zs ++ 0 :: rest) (zs.length + 2) =
      zs ++ 0 :: behind :: rest' := by
  rw [svGrow]
  cases rest with
  | nil =>
    have hmore : zs.length + 2 - (zs ++ [(0 : UInt8)]).length + slack = slack + 1 := by
      rw [List.length_append, List.length_singleton]
      omega
    rw [if_pos (by simp), hmore, List.replicate_succ]
    exact ⟨junk, List.replicate slack junk, by simp⟩
  | cons behind rest =>
    rw [if_neg (by simp)]
    exact ⟨behind, rest, rfl⟩

theorem scan_spec (rest : List UInt8) (hletters : ∀ c ∈ letters, isALPHA c = true)
    (hdigits : ∀ c ∈ digits, isDIGIT c = true) :
    skipWhile isALPHA (letters ++ digits ++ 0 :: rest) 0 = some letters.length ∧
      skipWhile isDIGIT (letters ++ digits ++ 0 :: rest) letters.length =
        some (letters.length + digits.length) := by
  constructor
  · have hskip (stop : UInt8) (xs : List UInt8) (hstop : isALPHA stop = false) :
        skipWhile isALPHA (letters ++ stop :: xs) 0 = some letters.length := by
      have hthis := skipWhile_spec [] xs hletters hstop
      rwa [List.nil_append, List.length_nil, Nat.zero_add] at hthis
    cases digits with
    | nil =>
      rw [List.append_nil]
      exact hskip 0 rest rfl
    | cons d digits =>
      rw [List.append_assoc, List.cons_append]
      refine hskip d _ ?_
      by_contra halpha
      have hdigit := alpha_not_digit (by simpa using halpha)
      rw [hdigits d List.mem_cons_self] at hdigit
      cases hdigit
  · exact skipWhile_spec letters rest hdigits rfl

theorem svIncNomg_spec (slack : Nat) (junk : UInt8) {pv : Pv} (h : Shaped text) (hne : text ≠ [])
    (hpv : pv.Holds text) :
    ∃ pv', svIncNomg slack junk pv = some (.string pv') ∧ pv'.Holds (successor text) := by
  obtain ⟨rest, hbuf, hcur⟩ := hpv
  obtain ⟨first, tail, rfl⟩ := List.exists_cons_of_ne_nil hne
  have hfirst : first ≠ 0 := by
    rintro rfl
    have halnum := h.alnum 0 List.mem_cons_self
    simp [isALPHA, isDIGIT, isUPPER, isLOWER] at halnum
  have hloop := carryLoop_spec ((first :: tail).map wheelOf) (0 :: rest)
  rw [h.map_charOf, List.length_map] at hloop
  have hget : pv.buf[0]? = some first := by rw [hbuf]; rfl
  have hscan : (skipWhile isALPHA pv.buf 0).bind (skipWhile isDIGIT pv.buf) =
      some (first :: tail).length := by
    obtain ⟨letters, digits, htext, hletters, hdigits⟩ := h
    obtain ⟨halpha, hdigit⟩ := scan_spec rest hletters hdigits
    rw [hbuf, htext, halpha, Option.bind_some, hdigit, List.length_append]
  obtain ⟨d, halpha, hdigit⟩ := Option.bind_eq_some_iff.1 hscan
  simp only [svIncNomg, hget, Option.bind_eq_bind, Option.bind_some, if_neg hfirst, halpha, hdigit,
    hcur, Nat.lt_irrefl, if_false]
  rw [hbuf, hloop, Option.bind_some]
  dsimp only
  cases hturn : (turn ((first :: tail).map wheelOf)).1 with
  | false =>
    refine ⟨_, rfl, rest, ?_, ?_⟩
    · rw [successor_turned hturn]
    · rw [successor_turned hturn, List.length_map, length_turn, List.length_map]
  | true =>
    have hzeros : (turn ((first :: tail).map wheelOf)).2.map charOf =
        (first :: tail).map fun c => (kindOf c).first := by
      rw [(turn_carry hturn).2, List.map_map, List.map_map]
      exact List.map_congr_left fun c _ => charOf_zero (wheelOf c)
    obtain ⟨behind, rest', hgrow⟩ := svGrow_spec slack junk
      ((first :: tail).map fun c => (kindOf c).first) rest
    rw [List.length_map] at hgrow
    rw [hzeros, hgrow]
    have hshift := shiftLoop_spec (kindOf first).first behind
      ((tail.map fun c => (kindOf c).first) ++ [0]) rest'
    rw [List.length_append, List.length_map, List.length_singleton] at hshift
    have hform : ((first :: tail).map fun c => (kindOf c).first) ++ 0 :: behind :: rest' =
        (kindOf first).first :: ((tail.map fun c => (kindOf c).first) ++ [0]) ++ behind :: rest' := by
      simp
    rw [hform, List.length_cons, hshift]
    refine ⟨_, rfl, rest', ?_, ?_⟩
    · rw [successor_grown hturn]
      have hpushed : (if isDIGIT (kindOf first).first = true then 0x31 else (kindOf first).first) =
          pushed first := by
        rw [pushed, kindOf]
        split_ifs <;> simp_all [Kind.first, isDIGIT]
      simp [hpushed]
    · rw [successor_grown hturn]
      simp

/-- Increments one after another, for as long as there is a string. -/
def svIncs (slack : Nat) (junk : UInt8) : Nat → Pv → Option Pv
  | 0, pv => some pv
  | k + 1, pv =>
    match svIncNomg slack junk pv with
    | some (.string pv) => svIncs slack junk k pv
    | _ => none

theorem successor_ne_nil (hne : text ≠ []) : successor text ≠ [] := by
  cases hturn : (turn (text.map wheelOf)).1 with
  | false =>
    rw [successor_turned hturn]
    simpa [← List.length_eq_zero_iff] using hne
  | true =>
    rw [successor_grown hturn]
    simp [hne]

theorem iterate_shaped (h : Shaped text) (hne : text ≠ []) (k : Nat) :
    Shaped (successor^[k] text) ∧ successor^[k] text ≠ [] := by
  induction k generalizing text with
  | zero => exact ⟨h, hne⟩
  | succ k ih => exact ih (successor_next h).shaped (successor_ne_nil hne)

theorem svIncs_spec {pv : Pv} (h : Shaped text) (hne : text ≠ []) (hpv : pv.Holds text) (k : Nat) :
    ∃ pv', svIncs slack junk k pv = some pv' ∧ pv'.Holds (successor^[k] text) := by
  induction k generalizing text pv with
  | zero => exact ⟨pv, rfl, hpv⟩
  | succ k ih =>
    obtain ⟨pv', hinc, hpv'⟩ := svIncNomg_spec slack junk h hne hpv
    obtain ⟨pv'', hincs, hpv''⟩ := ih (successor_next h).shaped (successor_ne_nil hne) hpv'
    refine ⟨pv'', ?_, hpv''⟩
    rw [svIncs, hinc]
    exact hincs

theorem length_successor (text : List UInt8) :
    text.length ≤ (successor text).length ∧
      ((successor text).length = text.length →
        text = [] ∨ (turn (text.map wheelOf)).1 = false) := by
  cases hturn : (turn (text.map wheelOf)).1 with
  | false => simp [successor_turned hturn]
  | true =>
    rw [successor_grown hturn]
    cases text <;> simp

def Before (text text' : List UInt8) : Prop :=
  text.length < text'.length ∨
    text.length = text'.length ∧ radixValue text < radixValue text'

theorem before_successor (hne : text ≠ []) : Before text (successor text) := by
  obtain ⟨hle, heq⟩ := length_successor text
  rcases Nat.lt_or_eq_of_le hle with hlt | hsame
  · exact .inl hlt
  · have hturn := (heq hsame.symm).resolve_left hne
    refine .inr ⟨hsame, ?_⟩
    rw [successor_turned hturn, radixValue, radixValue, map_wheelOf, value_turn hturn]
    exact Nat.lt_succ_self _

theorem before_iterate (h : Shaped text) (hne : text ≠ []) (k : Nat) :
    Before text (successor^[k + 1] text) := by
  induction k with
  | zero => exact before_successor hne
  | succ k ih =>
    rw [Function.iterate_succ_apply']
    have hstep := before_successor (iterate_shaped h hne (k + 1)).2
    rw [Before] at ih hstep ⊢
    omega

theorem iterate_inj (h : Shaped text) (hne : text ≠ []) {k l : Nat}
    (heq : successor^[k] text = successor^[l] text) : k = l := by
  have hlt {k l : Nat} (hkl : k < l) : successor^[k] text ≠ successor^[l] text := by
    obtain ⟨d, rfl⟩ := Nat.exists_eq_add_of_lt hkl
    rw [show k + d + 1 = d + 1 + k by omega, Function.iterate_add_apply]
    obtain ⟨hshaped, hne'⟩ := iterate_shaped h hne k
    have hbefore := before_iterate hshaped hne' d
    intro heq
    rw [← heq, Before] at hbefore
    omega
  rcases Nat.lt_trichotomy k l with hkl | hkl | hkl
  · exact absurd heq (hlt hkl)
  · exact hkl
  · exact absurd heq.symm (hlt hkl)

theorem radixVolume_congr (h : text.map kindOf = text'.map kindOf) :
    radixVolume text = radixVolume text' := by
  rw [← kinds_wheelOf, ← kinds_wheelOf] at h
  exact volume_congr h

theorem iterate_value (h : Shaped text) {k : Nat} (hk : radixValue text + k < radixVolume text) :
    (successor^[k] text).map kindOf = text.map kindOf ∧
      radixValue (successor^[k] text) = radixValue text + k := by
  induction k generalizing text with
  | zero => exact ⟨rfl, rfl⟩
  | succ k ih =>
    obtain ⟨hkinds, hvalue⟩ := (successor_next h).same (by omega)
    obtain ⟨hkinds', hvalue'⟩ := ih (successor_next h).shaped (by
      rw [hvalue, radixVolume_congr hkinds]
      omega)
    exact ⟨hkinds'.trans hkinds, by rw [Function.iterate_succ_apply, hvalue', hvalue]; omega⟩

/-- Nines, and the same behind a zero. -/
def Nines (text text' : List UInt8) : Prop :=
  text ≠ [] ∧ (∀ c ∈ text, c = 0x39) ∧ text' = 0x30 :: text

theorem successor_grown_eq (h : Shaped text) (hne : text ≠ []) (h' : Shaped text')
    (hturn : (turn (text.map wheelOf)).1 = true) (hturn' : (turn (text'.map wheelOf)).1 = false) :
    successor text = successor text' ↔ Nines text text' := by
  obtain ⟨c, tail, rfl⟩ := List.exists_cons_of_ne_nil hne
  have hzeros := (turn_carry hturn).2
  constructor
  · intro heq
    have hwheels : wheelOf (pushed c) :: ((c :: tail).map wheelOf).map Wheel.zero =
        (turn (text'.map wheelOf)).2 := by
      rw [← map_wheelOf (turn (text'.map wheelOf)).2, ← successor_turned hturn', ← heq, successor]
      dsimp only
      rw [hturn, if_pos rfl, hzeros, List.map_append, map_wheelOf]
      rfl
    have hkinds := kinds_turn (text'.map wheelOf)
    have hvalue := value_turn hturn'
    have hvolume := (turn_carry hturn).1
    rw [← hwheels] at hkinds hvalue
    rw [value, value_zeros] at hvalue
    rw [volume_congr (kinds_zeros _)] at hvalue
    obtain ⟨c', tail', rfl⟩ : ∃ c' tail', text' = c' :: tail' := by
      cases text' with
      | nil => cases hkinds
      | cons c' tail' => exact ⟨c', tail', rfl⟩
    have hcons : (c' :: tail').map wheelOf = wheelOf c' :: tail'.map wheelOf := rfl
    rw [kinds_cons, kinds_zeros, hcons, kinds_cons, List.cons.injEq] at hkinds
    obtain ⟨hkind, hkinds⟩ := hkinds
    have hvolume' := volume_congr hkinds
    have hlt := value_lt (tail'.map wheelOf)
    rw [hcons, value, ← hvolume'] at hvalue
    rw [← hvolume'] at hlt
    -- The successor of a letter's string starts with the first letter, which nothing leads to.
    have hdigit : isDIGIT c = true := by
      by_contra hno
      have hzero : (wheelOf (pushed c)).digit = 0 := by
        rw [pushed, if_neg hno, kindOf, if_neg hno]
        split_ifs <;> decide
      rw [hzero] at hvalue
      omega
    have hone : (wheelOf (pushed c)).digit = 1 := by
      rw [pushed, if_pos hdigit]
      decide
    have hfirst : (wheelOf c').digit = 0 := by
      by_contra hpos
      have hle := Nat.mul_le_mul_right (volume ((c :: tail).map wheelOf))
        (show 1 ≤ (wheelOf c').digit by omega)
      rw [hone] at hvalue
      omega
    rw [hone, hfirst] at hvalue
    have htail := value_inj hkinds (by omega)
    have hkind' : kindOf c' = .digit := by
      rw [← kindOf_wheelOf, ← hkind, kindOf_wheelOf, (pushed_facts c).2, kindOf_eq_digit.2 hdigit]
    refine ⟨List.cons_ne_nil c tail, fun d hd => ?_, ?_⟩
    · have hend := turn_carry_all hturn (List.mem_map_of_mem hd)
      have hd' : kindOf d = .digit := by
        rcases List.mem_cons.1 hd with rfl | hd
        · exact kindOf_eq_digit.2 hdigit
        · have hkinds := (shaped_iff.1 h).2
          rw [List.map_cons, List.pairwise_cons] at hkinds
          exact hkinds.1 _ (List.mem_map_of_mem hd) (kindOf_eq_digit.2 hdigit)
      have hchar := charOf_wheelOf (h.alnum d hd)
      rw [kindOf_wheelOf, hd'] at hend
      rw [← hchar, charOf, kindOf_wheelOf, hd', show (wheelOf d).digit = 9 by
        simpa [Kind.radix] using hend]
      rfl
    · have htail' : tail' = c :: tail := by
        have hshaped : (tail'.map wheelOf).map charOf = tail' := by
          have hall := h'.map_charOf
          rw [List.map_cons, List.map_cons, List.cons.injEq] at hall
          exact hall.2
        rw [← hshaped, ← htail, h.map_charOf]
      have hchar := charOf_wheelOf (h'.alnum c' List.mem_cons_self)
      rw [htail', ← hchar, charOf, kindOf_wheelOf, hkind', hfirst]
      rfl
  · rintro ⟨-, hnines, rfl⟩
    have hdigit : isDIGIT c = true := by
      rw [hnines c List.mem_cons_self]
      rfl
    have hcons : (0x30 :: c :: tail).map wheelOf = wheelOf 0x30 :: (c :: tail).map wheelOf := rfl
    have hnext : (wheelOf 0x30).digit + 1 < (wheelOf 0x30).kind.radix := by decide
    have hone : charOf ((wheelOf 0x30).next hnext) = 0x31 := rfl
    rw [successor_grown hturn, successor_turned hturn', hcons, turn, if_pos hturn, dif_pos hnext,
      hzeros]
    simp [pushed, hdigit, charOf_zero, kindOf_wheelOf, hone]

theorem successor_eq_iff (h : Shaped text) (hne : text ≠ []) (h' : Shaped text')
    (hne' : text' ≠ []) :
    successor text = successor text' ↔ text = text' ∨ Nines text text' ∨ Nines text' text := by
  have hback (heq : text.map wheelOf = text'.map wheelOf) : text = text' := by
    rw [← h.map_charOf, heq, h'.map_charOf]
  have hnines {text text' : List UInt8} (h : Nines text text') :
      (turn (text.map wheelOf)).1 = true ∧ (turn (text'.map wheelOf)).1 = false := by
    obtain ⟨hne, hall, rfl⟩ := h
    have hturn : (turn (text.map wheelOf)).1 = true := by
      clear hne
      induction text with
      | nil => rfl
      | cons c text ih =>
        rw [List.map_cons, turn, if_pos (ih fun d hd => hall d (List.mem_cons_of_mem c hd)),
          hall c List.mem_cons_self, dif_neg (by decide)]
    refine ⟨hturn, ?_⟩
    rw [List.map_cons, turn, if_pos hturn, dif_pos (by decide)]
  cases hturn : (turn (text.map wheelOf)).1 with
  | false =>
    have hno : ¬ Nines text text' := fun h => by simp [(hnines h).1] at hturn
    cases hturn' : (turn (text'.map wheelOf)).1 with
    | false =>
      have hno' : ¬ Nines text' text := fun h => by simp [(hnines h).1] at hturn'
      refine ⟨fun heq => .inl (hback ?_), by simp_all⟩
      rw [successor_turned hturn, successor_turned hturn'] at heq
      have hwheels := congrArg (List.map wheelOf) heq
      rw [map_wheelOf, map_wheelOf] at hwheels
      refine value_inj ?_ ?_
      · rw [← kinds_turn, hwheels, kinds_turn]
      · have hvalue := value_turn hturn
        have hvalue' := value_turn hturn'
        rw [hwheels] at hvalue
        omega
    | true =>
      rw [eq_comm, successor_grown_eq h' hne' h hturn' hturn]
      refine ⟨fun hthis => .inr (.inr hthis), ?_⟩
      rintro (rfl | hthis | hthis)
      · simp [hturn] at hturn'
      · exact absurd hthis hno
      · exact hthis
  | true =>
    have hno : ¬ Nines text' text := fun h => by simp [(hnines h).2] at hturn
    cases hturn' : (turn (text'.map wheelOf)).1 with
    | false =>
      rw [successor_grown_eq h hne h' hturn hturn']
      refine ⟨fun hthis => .inr (.inl hthis), ?_⟩
      rintro (rfl | hthis | hthis)
      · simp [hturn] at hturn'
      · exact hthis
      · exact absurd hthis hno
    | true =>
      have hno' : ¬ Nines text text' := fun h => by simp [(hnines h).2] at hturn'
      refine ⟨fun heq => .inl (hback ?_), by simp_all⟩
      obtain ⟨hend, hzeros⟩ := turn_carry hturn
      obtain ⟨hend', hzeros'⟩ := turn_carry hturn'
      rw [successor_grown hturn, successor_grown hturn'] at heq
      have hlength := congrArg List.length heq
      obtain ⟨c, tail, rfl⟩ := List.exists_cons_of_ne_nil hne
      obtain ⟨c', tail', rfl⟩ := List.exists_cons_of_ne_nil hne'
      have hkinds := congrArg (List.map kindOf) (List.cons.inj heq).2
      have hkinds' : kinds ((c :: tail).map wheelOf) = kinds ((c' :: tail').map wheelOf) := by
        rw [kinds_wheelOf, kinds_wheelOf, ← kinds_first, ← kinds_first (c' :: tail')]
        exact hkinds
      have hvolume := volume_congr hkinds'
      exact value_inj hkinds' (by omega)

/-- The increment leads through the strings of letters and digits one by one. -/
theorem increment_successor (slack : Nat) (junk : UInt8) (h : Shaped text) (hne : text ≠ []) :
    (∀ pv : Pv, pv.Holds text → ∀ k, ∃ pv', svIncs slack junk k pv = some pv' ∧
        pv'.Holds (successor^[k] text)) ∧
      Next text (successor text) ∧
      (∀ text', Shaped text' → text' ≠ [] →
        (successor text = successor text' ↔ text = text' ∨ Nines text text' ∨ Nines text' text)) ∧
      (∀ k l, successor^[k] text = successor^[l] text → k = l) ∧
      ∀ k, radixValue text + k < radixVolume text →
        (successor^[k] text).map kindOf = text.map kindOf ∧
          radixValue (successor^[k] text) = radixValue text + k :=
  ⟨fun _ hpv k => svIncs_spec h hne hpv k, successor_next h,
    fun _ h' hne' => successor_eq_iff h hne h' hne', fun _ _ => iterate_inj h hne,
    fun _ => iterate_value h⟩

/-- `Zz9`, which is followed by `AAa0`. -/
theorem increment_successor_grows :
    (∀ pv : Pv, pv.Holds [0x5A, 0x7A, 0x39] → ∀ k, ∃ pv', svIncs 0 0 k pv = some pv' ∧
        pv'.Holds (successor^[k] [0x5A, 0x7A, 0x39])) ∧
      Next [0x5A, 0x7A, 0x39] (successor [0x5A, 0x7A, 0x39]) ∧
      (∀ text', Shaped text' → text' ≠ [] →
        (successor [0x5A, 0x7A, 0x39] = successor text' ↔ [0x5A, 0x7A, 0x39] = text' ∨
          Nines [0x5A, 0x7A, 0x39] text' ∨ Nines text' [0x5A, 0x7A, 0x39])) ∧
      (∀ k l, successor^[k] [0x5A, 0x7A, 0x39] = successor^[l] [0x5A, 0x7A, 0x39] → k = l) ∧
      ∀ k, radixValue [0x5A, 0x7A, 0x39] + k < radixVolume [0x5A, 0x7A, 0x39] →
        (successor^[k] [0x5A, 0x7A, 0x39]).map kindOf = [0x5A, 0x7A, 0x39].map kindOf ∧
          radixValue (successor^[k] [0x5A, 0x7A, 0x39]) = radixValue [0x5A, 0x7A, 0x39] + k :=
  increment_successor 0 0 ⟨[0x5A, 0x7A], [0x39], rfl, List.all_eq_true.1 rfl, List.all_eq_true.1 rfl⟩
    (by decide)

/-- `9` and `09` are both followed by `10`. -/
theorem increment_meets :
    ¬ ∀ (pv pv' q q' : Pv) (text text' next : List UInt8), Shaped text → Shaped text' →
      pv.Holds text → pv'.Holds text' → svIncNomg 0 0 pv = some (.string q) →
      svIncNomg 0 0 pv' = some (.string q') → q.Holds next → q'.Holds next → text = text' := by
  intro hall
  have hsame := hall ⟨[0x39, 0], 1⟩ ⟨[0x30, 0x39, 0], 2⟩ ⟨[0x31, 0x30, 0], 2⟩
    ⟨[0x31, 0x30, 0], 2⟩ [0x39] [0x30, 0x39] [0x31, 0x30]
    ⟨[], [0x39], rfl, List.all_eq_true.1 rfl, List.all_eq_true.1 rfl⟩
    ⟨[], [0x30, 0x39], rfl, List.all_eq_true.1 rfl, List.all_eq_true.1 rfl⟩
    ⟨[], rfl, rfl⟩ ⟨[], rfl, rfl⟩ (by decide) (by decide) ⟨[], rfl, rfl⟩ ⟨[], rfl, rfl⟩
  cases hsame

end XPerl.StringOps
