import XPerl.Framework.Search
import XPerl.StringOps.Delimcpy
import XPerl.StringOps.Vec

/-! The Boyer-Moore search for a string in a string. -/

namespace XPerl.StringOps.Fbm

open XPerl.Framework

def newline : UInt8 := 0x0A

/-- What `fbm_compile` attaches: `SvTAIL` and the table, for more than two bytes. -/
structure Magic where
  tail : Bool
  table : Option (UInt8 → Nat)

/-- The string to search for; it is `SvVALID` where it has the magic. -/
structure Littlestr where
  bytes : List UInt8
  magic : Option Magic

def tableLen (len : Nat) : Nat := if 255 < len then 255 else len % 256

/-- The loop of `fbm_compile` after so many bytes, from the last one on. -/
def fillTable (s : List UInt8) : Nat → UInt8 → Nat
  | 0 => fun _ => tableLen s.length
  | i + 1 =>
    match s[s.length - 1 - i]? with
    | none => fillTable s i
    | some c =>
      if fillTable s i c = tableLen s.length then Function.update (fillTable s i) c (i % 256)
      else fillTable s i

def fbmCompile (sv : Littlestr) (tail : Bool) : Littlestr :=
  if sv.magic.isSome = true then sv
  else
    let s := if tail then sv.bytes ++ [newline] else sv.bytes
    if s.length = 0 then ⟨s, none⟩
    else ⟨s, some ⟨tail, if 2 < s.length then some (fillTable s (tableLen s.length)) else none⟩⟩

def isAt (s : List UInt8) (i : Nat) (c : UInt8) : Except Fault Bool :=
  if i < s.length then .ok (s[i]? = some c) else .error .undefined

/-- The comparison of `n` bytes from offsets of two strings on. -/
def memEQ (s : List UInt8) (i : Nat) (t : List UInt8) (j n : Nat) : Except Fault Bool :=
  if i + n ≤ s.length ∧ j + n ≤ t.length then .ok (decide (∀ d, d < n → s[i + d]? = t[j + d]?))
  else .error .undefined

def sameAt (s : List UInt8) (i : Nat) (t : List UInt8) (j : Nat) : Except Fault Bool :=
  memEQ s i t j 1

def andAlso (p q : Except Fault Bool) : Except Fault Bool := do
  if ← p then q else return false

def readAt (s : List UInt8) (i : Nat) : Except Fault UInt8 :=
  match s[i]? with
  | none => .error .undefined
  | some c => .ok c

def memchrUpTo (s : List UInt8) (i stop : Nat) (c : UInt8) : Except Fault (Option Nat) :=
  if i ≤ stop ∧ stop ≤ s.length then .ok (memchr (s.take stop) i c) else .error .undefined

/-- The loop of `ninstr`; the first argument bounds the rounds. -/
def ninstrLoop (big little : List UInt8) (first : UInt8) : Nat → Nat → Except Fault (Option Nat)
  | 0, _ => .error .undefined
  | rounds + 1, s =>
    if s + little.length ≤ big.length then do
      match ← memchrUpTo big s (big.length - little.length + 1) first with
      | none => return none
      | some s =>
        if big.length < s + little.length then return none
        else if ← memEQ big (s + 1) little 1 (little.length - 1) then return some s
        else ninstrLoop big little first rounds (s + 1)
    else .ok none

def ninstr (big little : List UInt8) : Except Fault (Option Nat) := do
  if little.length = 0 then return some 0
  else
    let first ← readAt little 0
    ninstrLoop big little first (big.length + 2) 0

def firstFrom (big : List UInt8) (s bigend : Nat) (c1 : UInt8) : Except Fault (Option Nat) := do
  if ← isAt big s c1 then return some s else memchrUpTo big (s + 1) bigend c1

/-- Two different bytes are searched for alternately; `bigend` is the last byte's offset. -/
def differentLoop (big : List UInt8) (bigend : Nat) (c1 c2 : UInt8) :
    Nat → Nat → Except Fault (Option Nat)
  | 0, _ => .error .undefined
  | rounds + 1, s =>
    if s < bigend then do
      match ← firstFrom big s bigend c1 with
      | none => return none
      | some s =>
        if ← isAt big (s + 1) c2 then return some s
        else if bigend < s + 2 then return none
        else
          match ← memchrUpTo big (s + 2) (bigend + 1) c2 with
          | none => return none
          | some s =>
            if ← isAt big (s - 1) c1 then return some (s - 1)
            else differentLoop big bigend c1 c2 rounds s
    else .ok none

def sameLoop (big : List UInt8) (bigend : Nat) (c1 : UInt8) : Nat → Nat → Except Fault (Option Nat)
  | 0, _ => .error .undefined
  | rounds + 1, s =>
    if s < bigend then do
      match (← firstFrom big s bigend c1).filter (· < bigend) with
      | none => return none
      | some s =>
        if ← isAt big (s + 1) c1 then return some s
        else sameLoop big bigend c1 rounds (s + 2)
    else .ok none

def fbmPair (big little : List UInt8) (tail : Bool) : Except Fault (Option Nat) := do
  let c1 ← readAt little 0
  let c2 ← readAt little 1
  let bigend := big.length - 1
  match ← (if c1 ≠ c2 then differentLoop big bigend c1 c2 (big.length + 1) 0
      else sameLoop big bigend c1 (big.length + 1) 0) with
  | some s => return some s
  | none =>
    if tail then
      if ← isAt big bigend c1 then return some bigend else return none
    else return none

/-- The loop that compares backwards, whose counter is an `I32`; `none` is a difference. -/
def compareBack (big little : List UInt8) : Nat → Nat → Int → Except Fault (Option Nat)
  | s, l, tmp =>
    if tmp = 0 then .ok (some s)
    else if tmp = -0x80000000 then .error .undefined
    else
      match s, l with
      | s + 1, l + 1 => do
        if ← sameAt big s little l then compareBack big little s l (tmp - 1) else return none
      | _, _ => .error .undefined

/-- Where one round of the search leads. -/
inductive Next where
  | found (s : Nat)
  | top2 (s : Nat)
  | checkEnd (s : Nat)

def fbmCompare (big little : List UInt8) (s : Nat) : Except Fault Next := do
  match ← compareBack big little s (little.length - 1) (toI32 (little.length - 1)) with
  | some s => return .found s
  | none => return if s + 1 < big.length then .top2 (s + 1) else .checkEnd (s + 1)

def fbmRound (big little : List UInt8) (table : UInt8 → Nat) (lastc : UInt8) (s : Nat) :
    Except Fault Next := do
  let tmp := table (← readAt big s)
  if tmp = 0 then fbmCompare big little s
  else if big.length ≤ s + tmp then return .checkEnd (s + tmp)
  else if ← isAt big (s + tmp) lastc then fbmCompare big little (s + tmp)
  else
    match ← memchrUpTo big (s + tmp + 1) big.length lastc with
    | none => return .checkEnd big.length
    | some s => return .top2 s

def fbmCheckEnd (big little : List UInt8) (tail : Bool) (s : Nat) : Except Fault (Option Nat) := do
  if s = big.length ∧ tail = true then
    if ← memEQ big (big.length - (little.length - 1)) little 0 (little.length - 1) then
      return some (big.length - (little.length - 1))
    else return none
  else return none

def fbmLoop (big little : List UInt8) (tail : Bool) (table : UInt8 → Nat) (lastc : UInt8) :
    Nat → Nat → Except Fault (Option Nat)
  | 0, _ => .error .undefined
  | rounds + 1, s => do
    match ← fbmRound big little table lastc s with
    | .found s => return some s
    | .checkEnd s => fbmCheckEnd big little tail s
    | .top2 s => fbmLoop big little tail table lastc rounds s

def fbmSearch (big little : List UInt8) (magic : Magic) : Except Fault (Option Nat) := do
  if big.length < little.length then return none
  else
    let s := little.length - 1
    if s < big.length then
      match magic.table with
      | none => .error .undefined
      | some table =>
        let lastc ← readAt little s
        fbmLoop big little magic.tail table lastc (big.length + 1) s
    else fbmCheckEnd big little magic.tail s

def fbmAnchored (big little : List UInt8) : Except Fault (Option Nat) := do
  let s := big.length - little.length
  if ← andAlso (isAt big (big.length - 1) newline)
      (andAlso (sameAt big s little 0) (memEQ big (s + 1) little 1 (little.length - 2))) then
    return some s
  else if ← andAlso (sameAt big (s + 1) little 0)
      (memEQ big (s + 2) little 1 (little.length - 2)) then
    return some (s + 1)
  else return none

def fbmShort (big little : List UInt8) (tail : Bool) : Except Fault (Option Nat) := do
  if tail = true ∧ big.length = little.length - 1 then
    if little.length = 1 then return some 0
    else if ← andAlso (sameAt big 0 little 0) (memEQ big 0 little 0 (little.length - 1)) then
      return some 0
    else return none
  else return none

def fbmSingle (big little : List UInt8) (tail multiline : Bool) : Except Fault (Option Nat) := do
  if tail = true ∧ multiline = false then
    if ← isAt big (big.length - 1) newline then return some (big.length - 1)
    else return some big.length
  else
    match ← memchrUpTo big 0 big.length (← readAt little 0) with
    | some s => return some s
    | none => return if tail then some big.length else none

def fbmPairAnchored (big little : List UInt8) : Except Fault (Option Nat) := do
  if ← andAlso (sameAt big (big.length - 2) little 0) (isAt big (big.length - 1) newline) then
    return some (big.length - 2)
  else if ← sameAt big (big.length - 1) little 0 then return some (big.length - 1)
  else return none

def fbmInstr (big : List UInt8) (littlestr : Littlestr) (multiline : Bool) :
    Except Fault (Option Nat) :=
  let little := littlestr.bytes
  let tail := (littlestr.magic.map Magic.tail).getD false
  if big.length < little.length then fbmShort big little tail
  else if little.length = 0 then .ok (some 0)
  else if little.length = 1 then fbmSingle big little tail multiline
  else if little.length = 2 then
    if tail = true ∧ multiline = false then fbmPairAnchored big little
    else fbmPair big little tail
  else if tail = true ∧ multiline = false then fbmAnchored big little
  else
    match littlestr.magic with
    | none => ninstr big little
    | some magic => fbmSearch big little magic

def Matches (w big : List UInt8) (k : Nat) : Prop :=
  k + w.length ≤ big.length ∧ ∀ d, d < w.length → big[k + d]? = w[d]?

def MatchesEnd (w big : List UInt8) (k : Nat) : Prop :=
  Matches w big k ∧ k + w.length = big.length

def Preferred (P Q : Nat → Prop) (found : Option Nat) : Prop :=
  (found ≠ none ∧ Earliest P found) ∨ ((∀ k, ¬ P k) ∧ Earliest Q found)

/-- The string that a needle is searched for with: not compiled, or compiled with or without
`FBMcf_TAIL`. -/
def littlestrOf (needle : List UInt8) : Option Bool → Littlestr
  | none => ⟨needle, none⟩
  | some tail => fbmCompile ⟨needle, none⟩ tail

def Wanted (needle big : List UInt8) : Option Bool → Bool → Option Nat → Prop
  | some true, true =>
    Preferred (Matches (needle ++ [newline]) big) (MatchesEnd needle big)
  | some true, false =>
    Earliest fun k => MatchesEnd (needle ++ [newline]) big k ∨ MatchesEnd needle big k
  | _, _ => Earliest (Matches needle big)

/-- The search stays inside both strings and finds what it should. -/
def Finds (needle big : List UInt8) (compiled : Option Bool) (multiline : Bool) : Prop :=
  ∃ found, fbmInstr big (littlestrOf needle compiled) multiline = .ok found ∧
    Wanted needle big compiled multiline found

section Reading

@[simp] theorem ok_bind {α β : Type} (a : α) (f : α → Except Fault β) :
    (Except.ok a >>= f) = f a := rfl

@[simp] theorem pure_ok {α : Type} (a : α) : (pure a : Except Fault α) = .ok a := rfl

variable {s t w big : List UInt8} {i j k n stop : Nat} {c c1 c2 : UInt8} {tail : Bool}

theorem isAt_eq (h : i < s.length) (c : UInt8) : isAt s i c = .ok (decide (s[i]? = some c)) :=
  if_pos h

theorem memEQ_eq (hi : i + n ≤ s.length) (hj : j + n ≤ t.length) :
    memEQ s i t j n = .ok (decide (∀ d, d < n → s[i + d]? = t[j + d]?)) :=
  if_pos ⟨hi, hj⟩

theorem sameAt_eq (hi : i < s.length) (hj : j < t.length) :
    sameAt s i t j = .ok (decide (s[i]? = t[j]?)) := by
  rw [sameAt, memEQ_eq hi hj]
  congr 2
  apply propext
  constructor
  · intro h
    exact h 0 Nat.one_pos
  · intro h d hd
    obtain rfl := Nat.lt_one_iff.1 hd
    exact h

@[simp] theorem andAlso_ok (p q : Bool) : andAlso (.ok p) (.ok q) = .ok (p && q) := by
  cases p <;> rfl

theorem readAt_eq (h : s[i]? = some c) : readAt s i = .ok c := by
  rw [readAt, h]

/-- The first byte in a range; `none` says that there is none. -/
def FirstIn (s : List UInt8) (i stop : Nat) (c : UInt8) : Option Nat → Prop
  | none => ∀ k, i ≤ k → k < stop → s[k]? ≠ some c
  | some k => (i ≤ k ∧ k < stop) ∧ s[k]? = some c ∧ ∀ j, i ≤ j → j < k → s[j]? ≠ some c

theorem memchrUpTo_spec (s : List UInt8) (hi : i ≤ stop) (hstop : stop ≤ s.length) (c : UInt8) :
    ∃ found, memchrUpTo s i stop c = .ok found ∧ FirstIn s i stop c found := by
  refine ⟨_, if_pos ⟨hi, hstop⟩, ?_⟩
  have htake : ∀ k, k < stop → (s.take stop)[k]? = s[k]? := fun k hk =>
    List.getElem?_take_of_lt hk
  cases hfound : memchr (s.take stop) i c with
  | none =>
    intro k hk hlt
    rw [← htake k hlt]
    exact memchr_none hfound hk
  | some k =>
    obtain ⟨hle, hk, hbefore⟩ := memchr_some hfound
    have hlt : k < stop := by
      have hlen := (List.getElem?_eq_some_iff.1 hk).1
      rw [List.length_take] at hlen
      omega
    refine ⟨⟨hle, hlt⟩, (htake k hlt).symm.trans hk, ?_⟩
    intro j hj hjk
    rw [← htake j (by omega)]
    exact hbefore j hj hjk

theorem firstFrom_spec (hi : i < stop) (hstop : stop ≤ s.length) (c : UInt8) :
    ∃ found, firstFrom s i stop c = .ok found ∧ FirstIn s i stop c found := by
  rw [firstFrom, isAt_eq (by omega)]
  by_cases hc : s[i]? = some c
  · refine ⟨some i, by simp [hc], ⟨Nat.le_refl i, hi⟩, hc, ?_⟩
    intro j hj hlt
    omega
  · obtain ⟨found, hfound, hfirst⟩ := memchrUpTo_spec s (i := i + 1) hi hstop c
    refine ⟨found, by simpa [hc] using hfound, ?_⟩
    have hnext : ∀ k, i ≤ k → (i + 1 ≤ k → s[k]? ≠ some c) → s[k]? ≠ some c := by
      intro k hk hrest
      rcases Nat.eq_or_lt_of_le hk with rfl | hlt
      · exact hc
      · exact hrest hlt
    cases found with
    | none => exact fun k hk hlt => hnext k hk fun hk => hfirst k hk hlt
    | some k =>
      obtain ⟨⟨hle, hlt⟩, hk, hbefore⟩ := hfirst
      exact ⟨⟨Nat.le_of_succ_le hle, hlt⟩, hk, fun j hj hjk => hnext j hj fun hj => hbefore j hj hjk⟩

end Reading

section Words

variable {s t w big : List UInt8} {i j k n stop : Nat} {c c1 c2 : UInt8} {tail : Bool}

theorem matches_pair : Matches [c1, c2] big k ↔ big[k]? = some c1 ∧ big[k + 1]? = some c2 := by
  constructor
  · rintro ⟨-, h⟩
    exact ⟨h 0 (by simp), h 1 (by simp)⟩
  · rintro ⟨h0, h1⟩
    have hlen := (List.getElem?_eq_some_iff.1 h1).1
    refine ⟨hlen, ?_⟩
    intro d hd
    rcases Nat.lt_succ_iff_lt_or_eq.1 hd with hd | rfl
    · obtain rfl := Nat.lt_one_iff.1 hd
      exact h0
    · exact h1

theorem matchesEnd_dropLast : MatchesEnd w.dropLast big k ↔
    k + (w.length - 1) = big.length ∧ ∀ d, d < w.length - 1 → big[k + d]? = w[d]? := by
  rw [MatchesEnd, Matches, List.length_dropLast]
  have hget : ∀ d, d < w.length - 1 → w.dropLast[d]? = w[d]? := by
    intro d hd
    rw [List.getElem?_dropLast, if_pos hd]
  constructor
  · rintro ⟨⟨-, h⟩, heq⟩
    exact ⟨heq, fun d hd => (h d hd).trans (hget d hd)⟩
  · rintro ⟨heq, h⟩
    exact ⟨⟨Nat.le_of_eq heq, fun d hd => (h d hd).trans (hget d hd).symm⟩, heq⟩

theorem agree_succ : (∀ d, d < n + 1 → big[k + d]? = w[d]?) ↔
    big[k]? = w[0]? ∧ ∀ d, d < n → big[k + 1 + d]? = w[1 + d]? := by
  constructor
  · intro h
    refine ⟨h 0 (Nat.succ_pos n), ?_⟩
    intro d hd
    rw [Nat.add_assoc]
    exact h (1 + d) (by omega)
  · rintro ⟨h0, h⟩ d hd
    cases d with
    | zero => exact h0
    | succ d =>
      rw [show k + (d + 1) = k + 1 + d by omega, Nat.add_comm d 1]
      exact h d (by omega)

theorem matches_iff_last (hw : 0 < w.length) : Matches w big k ↔ k + w.length ≤ big.length ∧
    big[k + (w.length - 1)]? = w[w.length - 1]? ∧
      ∀ d, d < w.length - 1 → big[k + d]? = w[d]? := by
  constructor
  · rintro ⟨hle, h⟩
    exact ⟨hle, h _ (by omega), fun d hd => h d (by omega)⟩
  · rintro ⟨hle, hlast, h⟩
    refine ⟨hle, ?_⟩
    intro d hd
    rcases Nat.lt_or_eq_of_le (Nat.le_sub_one_of_lt hd) with hlt | rfl
    · exact h d hlt
    · exact hlast

end Words

section Pairs

variable {w big : List UInt8} {bigend rounds s k : Nat} {c1 c2 : UInt8} {tail : Bool}

theorem differentLoop_spec (hend : bigend + 1 = big.length)
    (hlow : ∀ k, Matches [c1, c2] big k → s ≤ k) (hs : s ≤ big.length)
    (hrounds : big.length < rounds + s) :
    ∃ found, differentLoop big bigend c1 c2 rounds s = .ok found ∧
      Earliest (Matches [c1, c2] big) found := by
  induction rounds generalizing s with
  | zero => omega
  | succ rounds ih =>
    have hin : ∀ k, Matches [c1, c2] big k → k < bigend := by
      intro k hk
      have hlen : k + 2 ≤ big.length := hk.1
      omega
    rw [differentLoop]
    by_cases hlt : s < bigend
    · rw [if_pos hlt]
      obtain ⟨found, hfound, hfirst⟩ := firstFrom_spec (s := big) hlt (by omega) c1
      rw [hfound]
      cases found with
      | none =>
        refine ⟨none, rfl, ?_⟩
        intro k hk
        exact hfirst k (hlow k hk) (hin k hk) (matches_pair.1 hk).1
      | some t =>
        obtain ⟨⟨hst, htend⟩, ht, hbefore⟩ := hfirst
        have hfrom : ∀ k, Matches [c1, c2] big k → t ≤ k := by
          intro k hk
          apply Nat.le_of_not_lt
          intro hlt
          exact hbefore k (hlow k hk) hlt (matches_pair.1 hk).1
        simp only [ok_bind, isAt_eq (show t + 1 < big.length by omega)]
        by_cases hc2 : big[t + 1]? = some c2
        · refine ⟨some t, by simp [hc2], matches_pair.2 ⟨ht, hc2⟩, hfrom⟩
        · have hafter : ∀ k, Matches [c1, c2] big k → t + 1 ≤ k := by
            intro k hk
            rcases Nat.eq_or_lt_of_le (hfrom k hk) with rfl | hlt
            · exact absurd (matches_pair.1 hk).2 hc2
            · exact hlt
          simp only [hc2, decide_false, Bool.false_eq_true, if_false]
          by_cases hover : bigend < t + 2
          · rw [if_pos hover]
            refine ⟨none, rfl, ?_⟩
            intro k hk
            have h1 := hafter k hk
            have h2 := hin k hk
            omega
          · rw [if_neg hover]
            obtain ⟨found, hfound, hsecond⟩ :=
              memchrUpTo_spec big (show t + 2 ≤ bigend + 1 by omega) (by omega) c2
            rw [hfound]
            cases found with
            | none =>
              refine ⟨none, rfl, ?_⟩
              intro k hk
              have h1 := hafter k hk
              have h2 := hin k hk
              exact hsecond (k + 1) (by omega) (by omega) (matches_pair.1 hk).2
            | some u =>
              obtain ⟨⟨htu, hu⟩, hget, hbefore⟩ := hsecond
              have hback : ∀ k, Matches [c1, c2] big k → u - 1 ≤ k := by
                intro k hk
                have h1 := hafter k hk
                apply Nat.le_of_not_lt
                intro hlt
                exact hbefore (k + 1) (by omega) (by omega) (matches_pair.1 hk).2
              simp only [ok_bind, isAt_eq (show u - 1 < big.length by omega)]
              by_cases hc1 : big[u - 1]? = some c1
              · refine ⟨some (u - 1), by simp [hc1], ?_, hback⟩
                exact matches_pair.2 ⟨hc1, by rwa [show u - 1 + 1 = u by omega]⟩
              · simp only [hc1, decide_false, Bool.false_eq_true, if_false]
                apply ih
                · intro k hk
                  have h1 := hback k hk
                  rcases Nat.eq_or_lt_of_le h1 with heq | hlt
                  · rw [heq] at hc1
                    exact absurd (matches_pair.1 hk).1 hc1
                  · omega
                · omega
                · omega
    · rw [if_neg hlt]
      refine ⟨none, rfl, ?_⟩
      intro k hk
      have h1 := hlow k hk
      have h2 := hin k hk
      omega

theorem sameLoop_spec (hend : bigend + 1 = big.length)
    (hlow : ∀ k, Matches [c1, c1] big k → s ≤ k) (hs : s ≤ big.length)
    (hrounds : big.length < rounds + s) :
    ∃ found, sameLoop big bigend c1 rounds s = .ok found ∧
      Earliest (Matches [c1, c1] big) found := by
  induction rounds generalizing s with
  | zero => omega
  | succ rounds ih =>
    have hin : ∀ k, Matches [c1, c1] big k → k < bigend := by
      intro k hk
      have hlen : k + 2 ≤ big.length := hk.1
      omega
    rw [sameLoop]
    by_cases hlt : s < bigend
    · rw [if_pos hlt]
      obtain ⟨found, hfound, hfirst⟩ := firstFrom_spec (s := big) hlt (by omega) c1
      rw [hfound]
      cases found with
      | none =>
        refine ⟨none, rfl, ?_⟩
        intro k hk
        exact hfirst k (hlow k hk) (hin k hk) (matches_pair.1 hk).1
      | some t =>
        obtain ⟨⟨hst, htend⟩, ht, hbefore⟩ := hfirst
        have hfrom : ∀ k, Matches [c1, c1] big k → t ≤ k := by
          intro k hk
          apply Nat.le_of_not_lt
          intro hlt
          exact hbefore k (hlow k hk) hlt (matches_pair.1 hk).1
        simp only [ok_bind, Option.filter_some, decide_eq_true htend, if_true,
          isAt_eq (show t + 1 < big.length by omega)]
        by_cases hc1 : big[t + 1]? = some c1
        · exact ⟨some t, by simp [hc1], matches_pair.2 ⟨ht, hc1⟩, hfrom⟩
        · simp only [hc1, decide_false, Bool.false_eq_true, if_false]
          apply ih
          · -- Neither the byte found nor the one behind it begins a pair.
            intro k hk
            obtain ⟨h0, h1⟩ := matches_pair.1 hk
            have hle := hfrom k hk
            have hk0 : k ≠ t := by
              rintro rfl
              exact hc1 h1
            have hk1 : k ≠ t + 1 := by
              rintro rfl
              exact hc1 h0
            omega
          · omega
          · omega
    · rw [if_neg hlt]
      refine ⟨none, rfl, ?_⟩
      intro k hk
      have h1 := hlow k hk
      have h2 := hin k hk
      omega

end Pairs

section Ninstr

variable {w big : List UInt8} {rounds s : Nat} {first : UInt8}

theorem ninstrLoop_spec (hfirst : w[0]? = some first)
    (hlow : ∀ k, Matches w big k → s ≤ k) (hs : s ≤ big.length + 1)
    (hrounds : big.length + 1 < rounds + s) :
    ∃ found, ninstrLoop big w first rounds s = .ok found ∧ Earliest (Matches w big) found := by
  have hpos : 0 < w.length := (List.getElem?_eq_some_iff.1 hfirst).1
  induction rounds generalizing s with
  | zero => omega
  | succ rounds ih =>
    rw [ninstrLoop]
    by_cases hroom : s + w.length ≤ big.length
    · rw [if_pos hroom]
      obtain ⟨found, hfound, hin⟩ := memchrUpTo_spec big
        (show s ≤ big.length - w.length + 1 by omega) (by omega) first
      rw [hfound]
      have hhead : ∀ k, Matches w big k → big[k]? = some first := by
        intro k hk
        exact (hk.2 0 hpos).trans hfirst
      cases found with
      | none =>
        refine ⟨none, rfl, ?_⟩
        intro k hk
        have hlen := hk.1
        exact hin k (hlow k hk) (by omega) (hhead k hk)
      | some t =>
        obtain ⟨⟨hst, ht⟩, hget, hbefore⟩ := hin
        have hfrom : ∀ k, Matches w big k → t ≤ k := by
          intro k hk
          apply Nat.le_of_not_lt
          intro hlt
          exact hbefore k (hlow k hk) hlt (hhead k hk)
        simp only [ok_bind, if_neg (show ¬ big.length < t + w.length by omega),
          memEQ_eq (s := big) (t := w) (i := t + 1) (j := 1) (n := w.length - 1) (by omega)
            (by omega)]
        have hsame : (∀ d, d < w.length - 1 → big[t + 1 + d]? = w[1 + d]?) ↔ Matches w big t := by
          rw [Matches, ← Nat.sub_add_cancel hpos, agree_succ, Nat.add_sub_cancel, hget, hfirst]
          constructor
          · exact fun h => ⟨by omega, rfl, h⟩
          · exact fun h => h.2.2
        by_cases heq : Matches w big t
        · exact ⟨some t, by simp only [hsame, heq, decide_true, if_true, pure_ok], heq, hfrom⟩
        · simp only [hsame, heq, decide_false, Bool.false_eq_true, if_false]
          apply ih
          · intro k hk
            rcases Nat.eq_or_lt_of_le (hfrom k hk) with rfl | hlt
            · exact absurd hk heq
            · exact hlt
          · omega
          · omega
    · rw [if_neg hroom]
      refine ⟨none, rfl, ?_⟩
      intro k hk
      have hlen := hk.1
      have hle := hlow k hk
      omega

theorem ninstr_spec (hpos : 0 < w.length) :
    ∃ found, ninstr big w = .ok found ∧ Earliest (Matches w big) found := by
  obtain ⟨first, hfirst⟩ : ∃ c, w[0]? = some c := ⟨_, List.getElem?_eq_getElem hpos⟩
  rw [ninstr, if_neg (by omega), readAt_eq hfirst]
  exact ninstrLoop_spec hfirst (fun k _ => Nat.zero_le k) (by omega) (by omega)

end Ninstr

section Special

variable {w x big : List UInt8} {k : Nat} {tail multiline : Bool}

/-- Where a string is to be found that is not anchored, its last byte being optional at the end. -/
abbrev Unanchored (w big : List UInt8) (tail : Bool) : Option Nat → Prop :=
  Preferred (Matches w big) fun k => tail = true ∧ MatchesEnd w.dropLast big k

abbrev Anchored (w big : List UInt8) : Option Nat → Prop :=
  Earliest fun k => MatchesEnd w big k ∨ MatchesEnd w.dropLast big k

theorem Preferred.of_some {P Q : Nat → Prop} (h : Earliest P (some k)) : Preferred P Q (some k) :=
  Or.inl ⟨nofun, h⟩

theorem earliest_of_only {P : Nat → Prop} [Decidable (P k)] (h : ∀ j, P j → j = k) :
    Earliest P (if P k then some k else none) := by
  by_cases hk : P k
  · rw [if_pos hk]
    exact ⟨hk, fun j hj => Nat.le_of_eq (h j hj).symm⟩
  · rw [if_neg hk]
    intro j hj
    exact hk (h j hj ▸ hj)

theorem unanchored_of_end (tail : Bool) (hno : ∀ k, ¬ Matches w big k)
    (hlen : w.length ≤ big.length + 1)
    {p : Prop} [Decidable p]
    (hp : p ↔ ∀ d, d < w.length - 1 → big[big.length - (w.length - 1) + d]? = w[d]?) :
    Unanchored w big tail (if tail = true ∧ p then some (big.length - (w.length - 1)) else none) := by
  refine Or.inr ⟨hno, ?_⟩
  have hiff : (tail = true ∧ p) ↔
      (tail = true ∧ MatchesEnd w.dropLast big (big.length - (w.length - 1))) := by
    rw [matchesEnd_dropLast, hp]
    have hsum : big.length - (w.length - 1) + (w.length - 1) = big.length := by omega
    simp only [hsum, true_and]
  have honly : ∀ j, (tail = true ∧ MatchesEnd w.dropLast big j) →
      j = big.length - (w.length - 1) := by
    rintro j ⟨-, hj⟩
    have heq := (matchesEnd_dropLast.1 hj).1
    omega
  have := decidable_of_iff _ hiff
  have h := earliest_of_only honly
  simpa only [hiff] using h

theorem fbmShort_spec (hlen : big.length < w.length) (tail : Bool) :
    ∃ found, fbmShort big w tail = .ok found ∧ Unanchored w big tail found ∧
      (tail = true → Anchored w big found) := by
  have hno : ∀ k, ¬ Matches w big k := by
    rintro k ⟨hle, -⟩
    omega
  suffices h : ∃ found, fbmShort big w tail = .ok found ∧
      Earliest (fun k => tail = true ∧ MatchesEnd w.dropLast big k) found by
    obtain ⟨found, hrun, hfound⟩ := h
    refine ⟨found, hrun, Or.inr ⟨hno, hfound⟩, ?_⟩
    intro htail
    apply hfound.congr
    intro k
    simp [htail, MatchesEnd, hno]
  rw [fbmShort]
  by_cases h : tail = true ∧ big.length = w.length - 1
  · rw [if_pos h]
    have hplace : ∀ k, (tail = true ∧ MatchesEnd w.dropLast big k) ↔
        (∀ d, d < w.length - 1 → big[d]? = w[d]?) ∧ k = 0 := by
      intro k
      rw [matchesEnd_dropLast]
      constructor
      · rintro ⟨-, hk, hsame⟩
        obtain rfl : k = 0 := by omega
        simp only [Nat.zero_add] at hsame
        exact ⟨hsame, rfl⟩
      · rintro ⟨hsame, rfl⟩
        simp only [Nat.zero_add]
        exact ⟨h.1, h.2.symm, hsame⟩
    by_cases hone : w.length = 1
    · rw [if_pos hone]
      refine ⟨some 0, rfl, (hplace 0).2 ⟨fun d hd => by omega, rfl⟩, ?_⟩
      intro j _
      exact Nat.zero_le j
    · rw [if_neg hone, sameAt_eq (by omega) (by omega)]
      simp only [ok_bind, andAlso_ok, memEQ_eq (s := big) (t := w) (i := 0) (j := 0)
        (n := w.length - 1) (by omega) (by omega), Nat.zero_add]
      by_cases hsame : ∀ d, d < w.length - 1 → big[d]? = w[d]?
      · refine ⟨some 0, ?_, (hplace 0).2 ⟨hsame, rfl⟩, fun j _ => Nat.zero_le j⟩
        rw [decide_eq_true (hsame 0 (by omega)), decide_eq_true hsame]
        rfl
      · refine ⟨none, ?_, fun k hk => hsame ((hplace k).1 hk).1⟩
        rw [decide_eq_false hsame, Bool.and_false]
        rfl
  · rw [if_neg h]
    refine ⟨none, rfl, ?_⟩
    rintro k ⟨htail, hk⟩
    have heq := (matchesEnd_dropLast.1 hk).1
    exact h ⟨htail, by omega⟩

theorem matches_single {c : UInt8} : Matches [c] big k ↔ big[k]? = some c := by
  constructor
  · rintro ⟨-, h⟩
    exact h 0 Nat.one_pos
  · intro h
    refine ⟨(List.getElem?_eq_some_iff.1 h).1, ?_⟩
    intro d hd
    obtain rfl := Nat.lt_one_iff.1 hd
    exact h

theorem matchesEnd_nil : MatchesEnd [] big k ↔ k = big.length := by
  constructor
  · rintro ⟨-, h⟩
    exact h
  · rintro rfl
    exact ⟨⟨Nat.le_refl _, fun d hd => absurd hd (Nat.not_lt_zero d)⟩, rfl⟩

theorem fbmSingle_spec {c : UInt8} (multiline : Bool) (hpos : 0 < big.length)
    (htail : tail = true → c = newline) :
    ∃ found, fbmSingle big [c] tail multiline = .ok found ∧
      if tail = true ∧ multiline = false then Anchored [c] big found
      else Unanchored [c] big tail found := by
  rw [fbmSingle]
  by_cases h : tail = true ∧ multiline = false
  · obtain rfl := htail h.1
    simp only [if_pos h, isAt_eq (show big.length - 1 < big.length by omega), ok_bind]
    by_cases hlast : big[big.length - 1]? = some newline
    · refine ⟨some (big.length - 1), by simp [hlast], ?_, ?_⟩
      · exact Or.inl ⟨matches_single.2 hlast, Nat.sub_add_cancel hpos⟩
      · rintro j (hj | hj)
        · have heq : j + 1 = big.length := hj.2
          omega
        · have heq := matchesEnd_nil.1 hj
          omega
    · refine ⟨some big.length, by simp [hlast], Or.inr (matchesEnd_nil.2 rfl), ?_⟩
      rintro j (hj | hj)
      · have heq : j + 1 = big.length := hj.2
        have hget := matches_single.1 hj.1
        rw [show j = big.length - 1 by omega] at hget
        exact absurd hget hlast
      · exact Nat.le_of_eq (matchesEnd_nil.1 hj).symm
  · obtain ⟨found, hfound, hfirst⟩ :=
      memchrUpTo_spec big (Nat.zero_le big.length) (Nat.le_refl _) c
    simp only [if_neg h, readAt_eq (show [c][0]? = some c from rfl), ok_bind, hfound]
    cases found with
    | none =>
      have hno : ∀ k, ¬ Matches [c] big k := by
        intro k hk
        exact hfirst k (Nat.zero_le k) hk.1 (matches_single.1 hk)
      refine ⟨_, rfl, ?_⟩
      have hend := unanchored_of_end tail hno (Nat.le_add_left 1 _) (p := True)
        (by simp)
      simpa using hend
    | some s =>
      refine ⟨_, rfl, Preferred.of_some ⟨matches_single.2 hfirst.2.1, ?_⟩⟩
      intro j hj
      apply Nat.le_of_not_lt
      intro hlt
      exact hfirst.2.2 j (Nat.zero_le j) hlt (matches_single.1 hj)

theorem fbmPairAnchored_spec {c : UInt8} (hlen : 2 ≤ big.length) :
    ∃ found, fbmPairAnchored big [c, newline] = .ok found ∧ Anchored [c, newline] big found := by
  have hone : ∀ k, MatchesEnd [c, newline].dropLast big k ↔
      k + 1 = big.length ∧ big[k]? = some c := by
    intro k
    exact ⟨fun h => ⟨h.2, matches_single.1 h.1⟩, fun h => ⟨matches_single.2 h.2, h.1⟩⟩
  have htwo : ∀ k, MatchesEnd [c, newline] big k ↔
      k + 2 = big.length ∧ big[k]? = some c ∧ big[k + 1]? = some newline := by
    intro k
    exact ⟨fun h => ⟨h.2, matches_pair.1 h.1⟩, fun h => ⟨matches_pair.2 h.2, h.1⟩⟩
  have hc : ([c, newline] : List UInt8)[0]? = some c := rfl
  have hsub : big.length - 2 + 1 = big.length - 1 := by omega
  simp only [fbmPairAnchored, sameAt_eq (show big.length - 2 < big.length by omega)
    (show 0 < [c, newline].length from Nat.two_pos), sameAt_eq
    (show big.length - 1 < big.length by omega) (show 0 < [c, newline].length from Nat.two_pos),
    isAt_eq (show big.length - 1 < big.length by omega), ok_bind, hc, andAlso_ok,
    ← Bool.decide_and, decide_eq_true_eq]
  by_cases hboth : big[big.length - 2]? = some c ∧ big[big.length - 1]? = some newline
  · rw [if_pos hboth]
    refine ⟨_, rfl, Or.inl ((htwo _).2 ⟨by omega, hboth.1, by rw [hsub]; exact hboth.2⟩), ?_⟩
    rintro j (hj | hj)
    · have heq := ((htwo j).1 hj).1
      omega
    · have heq := ((hone j).1 hj).1
      omega
  · have hno : ∀ k, ¬ MatchesEnd [c, newline] big k := by
      intro k hk
      obtain ⟨heq, h0, h1⟩ := (htwo k).1 hk
      rw [show k + 1 = big.length - 1 by omega] at h1
      rw [show k = big.length - 2 by omega] at h0
      exact hboth ⟨h0, h1⟩
    rw [if_neg hboth]
    by_cases hlast : big[big.length - 1]? = some c
    · rw [if_pos hlast]
      refine ⟨_, rfl, Or.inr ((hone _).2 ⟨by omega, hlast⟩), ?_⟩
      rintro j (hj | hj)
      · exact absurd hj (hno j)
      · have heq := ((hone j).1 hj).1
        omega
    · rw [if_neg hlast]
      refine ⟨_, rfl, ?_⟩
      rintro j (hj | hj)
      · exact hno j hj
      · obtain ⟨heq, hget⟩ := (hone j).1 hj
        rw [show j = big.length - 1 by omega] at hget
        exact hlast hget

theorem fbmPair_spec (c1 c2 : UInt8) (hlen : 2 ≤ big.length) (tail : Bool) :
    ∃ found, fbmPair big [c1, c2] tail = .ok found ∧ Unanchored [c1, c2] big tail found := by
  have h1 : ([c1, c2] : List UInt8)[0]? = some c1 := rfl
  have h2 : ([c1, c2] : List UInt8)[1]? = some c2 := rfl
  have hloop : ∃ found, (if c1 ≠ c2 then differentLoop big (big.length - 1) c1 c2 (big.length + 1) 0
      else sameLoop big (big.length - 1) c1 (big.length + 1) 0) = .ok found ∧
      Earliest (Matches [c1, c2] big) found := by
    by_cases hne : c1 ≠ c2
    · rw [if_pos hne]
      exact differentLoop_spec (by omega) (fun k _ => Nat.zero_le k) (Nat.zero_le _) (by omega)
    · rw [if_neg hne]
      obtain rfl := not_not.1 hne
      exact sameLoop_spec (by omega) (fun k _ => Nat.zero_le k) (Nat.zero_le _) (by omega)
  obtain ⟨found, hrun, hfound⟩ := hloop
  simp only [fbmPair, readAt_eq h1, readAt_eq h2, ok_bind, hrun]
  cases found with
  | some s => exact ⟨some s, rfl, Preferred.of_some hfound⟩
  | none =>
    have hend := unanchored_of_end tail hfound
      (Nat.le_succ_of_le hlen) (p := big[big.length - 1]? = some c1) (by
        constructor
        · intro h d hd
          obtain rfl := Nat.lt_one_iff.1 hd
          exact h
        · intro h
          exact h 0 Nat.one_pos)
    refine ⟨_, ?_, hend⟩
    simp only [isAt_eq (show big.length - 1 < big.length by omega), ok_bind, decide_eq_true_eq]
    cases tail with
    | false => rfl
    | true =>
      by_cases h : big[big.length - 1]? = some c1 <;> simp [h]

theorem fbmAnchored_spec (hlen : w.length ≤ big.length) (htwo : 2 < w.length)
    (hlast : w[w.length - 1]? = some newline) :
    ∃ found, fbmAnchored big w = .ok found ∧ Anchored w big found := by
  have hagree : ∀ k, (∀ d, d < w.length - 1 → big[k + d]? = w[d]?) ↔
      big[k]? = w[0]? ∧ ∀ d, d < w.length - 2 → big[k + 1 + d]? = w[1 + d]? := by
    intro k
    rw [show w.length - 1 = w.length - 2 + 1 by omega]
    exact agree_succ
  have hwhole : ∀ k, MatchesEnd w big k ↔ k = big.length - w.length ∧
      big[big.length - 1]? = some newline ∧ ∀ d, d < w.length - 1 → big[k + d]? = w[d]? := by
    intro k
    rw [MatchesEnd, matches_iff_last (by omega), hlast]
    constructor
    · rintro ⟨⟨-, h⟩, heq⟩
      rw [show k + (w.length - 1) = big.length - 1 by omega] at h
      exact ⟨by omega, h⟩
    · rintro ⟨rfl, h⟩
      rw [show big.length - w.length + (w.length - 1) = big.length - 1 by omega]
      exact ⟨⟨by omega, h⟩, by omega⟩
  have hrest : ∀ k, MatchesEnd w.dropLast big k ↔ k = big.length - w.length + 1 ∧
      ∀ d, d < w.length - 1 → big[k + d]? = w[d]? := by
    intro k
    rw [matchesEnd_dropLast]
    constructor
    · rintro ⟨heq, h⟩
      exact ⟨by omega, h⟩
    · rintro ⟨heq, h⟩
      exact ⟨by omega, h⟩
  simp only [fbmAnchored, isAt_eq (show big.length - 1 < big.length by omega),
    sameAt_eq (show big.length - w.length < big.length by omega) (show 0 < w.length by omega),
    sameAt_eq (show big.length - w.length + 1 < big.length by omega) (show 0 < w.length by omega),
    memEQ_eq (show big.length - w.length + 1 + (w.length - 2) ≤ big.length by omega)
      (show 1 + (w.length - 2) ≤ w.length by omega),
    memEQ_eq (show big.length - w.length + 2 + (w.length - 2) ≤ big.length by omega)
      (show 1 + (w.length - 2) ≤ w.length by omega),
    ok_bind, andAlso_ok, ← Bool.decide_and, decide_eq_true_eq, ← hagree]
  by_cases hfirst : big[big.length - 1]? = some newline ∧
      ∀ d, d < w.length - 1 → big[big.length - w.length + d]? = w[d]?
  · rw [if_pos hfirst]
    refine ⟨_, rfl, Or.inl ((hwhole _).2 ⟨rfl, hfirst⟩), ?_⟩
    rintro j (hj | hj)
    · exact Nat.le_of_eq ((hwhole j).1 hj).1.symm
    · rw [((hrest j).1 hj).1]
      exact Nat.le_succ _
  · have hno : ∀ k, ¬ MatchesEnd w big k := by
      intro k hk
      obtain ⟨rfl, h⟩ := (hwhole k).1 hk
      exact hfirst h
    rw [if_neg hfirst]
    by_cases hsecond : ∀ d, d < w.length - 1 → big[big.length - w.length + 1 + d]? = w[d]?
    · rw [if_pos hsecond]
      refine ⟨_, rfl, Or.inr ((hrest _).2 ⟨rfl, hsecond⟩), ?_⟩
      rintro j (hj | hj)
      · exact absurd hj (hno j)
      · exact Nat.le_of_eq ((hrest j).1 hj).1.symm
    · rw [if_neg hsecond]
      refine ⟨_, rfl, ?_⟩
      rintro j (hj | hj)
      · exact hno j hj
      · obtain ⟨rfl, h⟩ := (hrest j).1 hj
        exact hsecond h

end Special

section Table

variable {w : List UInt8} {i : Nat} {c : UInt8}

theorem tableLen_bounds (len : Nat) : tableLen len ≤ 255 ∧ tableLen len ≤ len := by
  rw [tableLen]
  split_ifs <;> omega

theorem fillTable_spec (hi : i ≤ tableLen w.length) (c : UInt8) :
    (fillTable w i c = tableLen w.length ∧ ∀ d, d < i → w[w.length - 1 - d]? ≠ some c) ∨
      (fillTable w i c < i ∧ w[w.length - 1 - fillTable w i c]? = some c ∧
        ∀ d, d < fillTable w i c → w[w.length - 1 - d]? ≠ some c) := by
  induction i with
  | zero => exact Or.inl ⟨rfl, fun d hd => absurd hd (Nat.not_lt_zero d)⟩
  | succ i ih =>
    have hbounds := tableLen_bounds w.length
    have ih := ih (Nat.le_of_succ_le hi)
    obtain ⟨b, hb⟩ : ∃ b, w[w.length - 1 - i]? = some b :=
      ⟨_, List.getElem?_eq_getElem (by omega)⟩
    have hkeep : fillTable w i c < i → fillTable w (i + 1) c = fillTable w i c →
        w[w.length - 1 - fillTable w i c]? = some c →
        (∀ d, d < fillTable w i c → w[w.length - 1 - d]? ≠ some c) →
        (fillTable w (i + 1) c < i + 1 ∧ w[w.length - 1 - fillTable w (i + 1) c]? = some c ∧
          ∀ d, d < fillTable w (i + 1) c → w[w.length - 1 - d]? ≠ some c) := by
      intro hlt heq hget hbefore
      rw [heq]
      exact ⟨Nat.lt_succ_of_lt hlt, hget, hbefore⟩
    by_cases hcb : c = b
    · subst hcb
      by_cases hnew : fillTable w i c = tableLen w.length
      · have hvalue : fillTable w (i + 1) c = i := by
          rw [fillTable, hb]
          simp only [if_pos hnew, Function.update_self]
          omega
        rcases ih with ⟨-, hnot⟩ | ⟨hlt, -, -⟩
        · rw [hvalue]
          exact Or.inr ⟨Nat.lt_succ_self i, hb, hnot⟩
        · omega
      · rcases ih with ⟨heq, -⟩ | ⟨hlt, hget, hbefore⟩
        · exact absurd heq hnew
        · refine Or.inr (hkeep hlt ?_ hget hbefore)
          rw [fillTable, hb]
          simp only [if_neg hnew]
    · have hvalue : fillTable w (i + 1) c = fillTable w i c := by
        rw [fillTable, hb]
        dsimp only
        split_ifs
        · exact Function.update_of_ne hcb _ _
        · rfl
      rcases ih with ⟨heq, hnot⟩ | ⟨hlt, hget, hbefore⟩
      · refine Or.inl ⟨hvalue.trans heq, ?_⟩
        intro d hd
        rcases Nat.lt_succ_iff_lt_or_eq.1 hd with hd | rfl
        · exact hnot d hd
        · rw [hb]
          exact fun h => hcb (Option.some.inj h).symm
      · exact Or.inr (hkeep hlt hvalue hget hbefore)

/-- How far a table may move the word when its last byte meets another one. -/
structure Shifts (w : List UInt8) (table : UInt8 → Nat) : Prop where
  le : ∀ c, table c ≤ w.length
  last : ∀ c, table c = 0 ↔ w[w.length - 1]? = some c
  before : ∀ c d, d < table c → w[w.length - 1 - d]? ≠ some c

theorem fillTable_shifts (hw : 2 < w.length) : Shifts w (fillTable w (tableLen w.length)) := by
  have hpos : 0 < tableLen w.length := by
    rw [tableLen]
    split_ifs <;> omega
  have hbounds := tableLen_bounds w.length
  refine ⟨?_, ?_, ?_⟩
  · intro c
    rcases fillTable_spec (Nat.le_refl (tableLen w.length)) c with ⟨heq, -⟩ | ⟨hlt, -⟩ <;> omega
  · intro c
    rcases fillTable_spec (Nat.le_refl (tableLen w.length)) c with ⟨heq, hnot⟩ | ⟨-, hget, hbefore⟩
    · exact iff_of_false (by omega) (hnot 0 hpos)
    · constructor
      · intro hzero
        rwa [hzero] at hget
      · intro hlast
        by_contra hne
        exact hbefore 0 (Nat.pos_of_ne_zero hne) hlast
  · intro c d hd
    rcases fillTable_spec (Nat.le_refl (tableLen w.length)) c with ⟨heq, hnot⟩ | ⟨-, -, hbefore⟩
    · exact hnot d (heq ▸ hd)
    · exact hbefore d hd

end Table

section Searching

variable {w big : List UInt8} {table : UInt8 → Nat} {lastc : UInt8} {m s t rounds : Nat}
  {tail : Bool}

theorem compareBack_spec (hs : m ≤ s) (hlen : s ≤ big.length) (hw : m ≤ w.length)
    (hm : m ≤ 0x7FFFFFFF) :
    compareBack big w s m m =
      .ok (if ∀ d, d < m → big[s - m + d]? = w[d]? then some (s - m) else none) := by
  induction m generalizing s with
  | zero =>
    rw [compareBack, if_pos (show ((0 : Nat) : Int) = 0 from rfl), if_pos fun d hd => absurd hd (Nat.not_lt_zero d)]
    · rfl
    · exact fun _ _ _ h => absurd h (Nat.zero_ne_add_one _)
  | succ m ih =>
    obtain ⟨s, rfl⟩ : ∃ t, s = t + 1 := ⟨s - 1, by omega⟩
    have hstep : ((m + 1 : Nat) : Int) - 1 = m := by omega
    have hall : (∀ d, d < m + 1 → big[s + 1 - (m + 1) + d]? = w[d]?) ↔
        big[s]? = w[m]? ∧ ∀ d, d < m → big[s - m + d]? = w[d]? := by
      have hsub : s + 1 - (m + 1) = s - m := by omega
      have hlast : s - m + m = s := by omega
      rw [hsub]
      constructor
      · intro h
        refine ⟨?_, fun d hd => h d (Nat.lt_succ_of_lt hd)⟩
        have hd := h m (Nat.lt_succ_self m)
        rwa [hlast] at hd
      · rintro ⟨h0, h⟩ d hd
        rcases Nat.lt_succ_iff_lt_or_eq.1 hd with hd | rfl
        · exact h d hd
        · rwa [hlast]
    rw [compareBack, if_neg (by omega), if_neg (by omega)]
    simp only [sameAt_eq (show s < big.length by omega) (show m < w.length by omega), ok_bind,
      decide_eq_true_eq, hstep, hall, ih (show m ≤ s by omega) (by omega) (by omega) (by omega)]
    by_cases hsame : big[s]? = w[m]?
    · rw [if_pos hsame]
      simp only [hsame, true_and, show s + 1 - (m + 1) = s - m by omega]
    · rw [if_neg hsame]
      simp only [hsame, false_and, if_false]
      rfl

def Behind (w big : List UInt8) (lastc : UInt8) (s : Nat) : Prop :=
  ∀ k, Matches w (big ++ [lastc]) k → s ≤ k + (w.length - 1)

theorem Matches.append {k : Nat} (h : Matches w big k) (lastc : UInt8) :
    Matches w (big ++ [lastc]) k := by
  obtain ⟨hle, hsame⟩ := h
  refine ⟨?_, ?_⟩
  · rw [List.length_append]
    exact Nat.le_succ_of_le hle
  · intro d hd
    rw [List.getElem?_append_left (by omega)]
    exact hsame d hd

theorem Behind.skip (h : Behind w big lastc s) (hlast : w[w.length - 1]? = some lastc)
    (ht : t ≤ big.length) (hno : ∀ i, s ≤ i → i < t → big[i]? ≠ some lastc) :
    Behind w big lastc t := by
  intro k hk
  have hw := (List.getElem?_eq_some_iff.1 hlast).1
  have hge := h k hk
  apply Nat.le_of_not_lt
  intro hlt
  have hget := hk.2 _ hw
  rw [List.getElem?_append_left (by omega), hlast] at hget
  exact hno _ hge hlt hget

theorem Behind.shift (h : Behind w big lastc s) (hshifts : Shifts w table) {c : UInt8}
    (hs : s < big.length) (hc : big[s]? = some c) : Behind w big lastc (s + table c) := by
  intro k hk
  have hge := h k hk
  have hle := hshifts.le c
  apply Nat.le_of_not_lt
  intro hlt
  have hd : k + (w.length - 1) - s < table c := by omega
  have hget := hk.2 (w.length - 1 - (k + (w.length - 1) - s)) (by omega)
  rw [show k + (w.length - 1 - (k + (w.length - 1) - s)) = s by omega,
    List.getElem?_append_left hs, hc] at hget
  exact hshifts.before c _ hd hget.symm

def Goes (w big : List UInt8) (lastc : UInt8) (s : Nat) : Next → Prop
  | .found k => Earliest (Matches w big) (some k)
  | .top2 t => s < t ∧ t < big.length ∧ Behind w big lastc t
  | .checkEnd t => big.length ≤ t ∧ Behind w big lastc t

theorem fbmCompare_spec (hshort : w.length - 1 ≤ 0x7FFFFFFF) (hlast : w[w.length - 1]? = some lastc)
    (hbehind : Behind w big lastc s) (hw : w.length - 1 ≤ s) (hs : s < big.length)
    (hget : big[s]? = some lastc) :
    ∃ next, fbmCompare big w s = .ok next ∧ Goes w big lastc s next := by
  have hpos : 0 < w.length := by
    have h := (List.getElem?_eq_some_iff.1 hlast).1
    omega
  have hmatches : (∀ d, d < w.length - 1 → big[s - (w.length - 1) + d]? = w[d]?) ↔
      Matches w big (s - (w.length - 1)) := by
    rw [matches_iff_last hpos, Nat.sub_add_cancel hw, hget, hlast]
    constructor
    · exact fun h => ⟨by omega, rfl, h⟩
    · exact fun h => h.2.2
  rw [fbmCompare, (toI32_eq_iff _).2 hshort,
    compareBack_spec hw (Nat.le_of_lt hs) (Nat.sub_le _ _) hshort]
  by_cases hhere : Matches w big (s - (w.length - 1))
  · rw [if_pos (hmatches.2 hhere)]
    refine ⟨_, rfl, hhere, ?_⟩
    intro j hj
    have hle := hbehind j (hj.append lastc)
    omega
  · have hnext : Behind w big lastc (s + 1) := by
      intro k hk
      have hle := hbehind k hk
      rcases Nat.eq_or_lt_of_le hle with heq | hlt
      · refine absurd ?_ hhere
        rw [heq, Nat.add_sub_cancel]
        refine ⟨by omega, ?_⟩
        intro d hd
        have h := hk.2 d hd
        rwa [List.getElem?_append_left (by omega)] at h
      · exact hlt
    rw [if_neg fun h => hhere (hmatches.1 h)]
    refine ⟨_, rfl, ?_⟩
    by_cases hin : s + 1 < big.length
    · rw [if_pos hin]
      exact ⟨Nat.lt_succ_self s, hin, hnext⟩
    · rw [if_neg hin]
      exact ⟨Nat.le_of_not_lt hin, hnext⟩

theorem fbmRound_spec (hshort : w.length - 1 ≤ 0x7FFFFFFF) (hshifts : Shifts w table)
    (hlast : w[w.length - 1]? = some lastc) (hbehind : Behind w big lastc s)
    (hw : w.length - 1 ≤ s) (hs : s < big.length) :
    ∃ next, fbmRound big w table lastc s = .ok next ∧ Goes w big lastc s next := by
  obtain ⟨c, hc⟩ : ∃ c, big[s]? = some c := ⟨_, List.getElem?_eq_getElem hs⟩
  simp only [fbmRound, readAt_eq hc, ok_bind]
  by_cases hzero : table c = 0
  · rw [if_pos hzero]
    have hcl : c = lastc := Option.some.inj (((hshifts.last c).1 hzero).symm.trans hlast)
    exact fbmCompare_spec hshort hlast hbehind hw hs (hcl ▸ hc)
  · have hmoved := hbehind.shift hshifts hs hc
    rw [if_neg hzero]
    by_cases hend : big.length ≤ s + table c
    · rw [if_pos hend]
      exact ⟨_, rfl, hend, hmoved⟩
    · have hin : s + table c < big.length := Nat.lt_of_not_le hend
      rw [if_neg hend, isAt_eq hin]
      by_cases hhit : big[s + table c]? = some lastc
      · obtain ⟨next, hrun, hgoes⟩ := fbmCompare_spec hshort hlast hmoved (by omega) hin hhit
        refine ⟨next, by simpa [hhit] using hrun, ?_⟩
        cases next with
        | found k => exact hgoes
        | checkEnd t => exact hgoes
        | top2 t => exact ⟨Nat.lt_of_le_of_lt (Nat.le_add_right s _) hgoes.1, hgoes.2⟩
      · obtain ⟨found, hfound, hfirst⟩ :=
          memchrUpTo_spec big (i := s + table c + 1) hin (Nat.le_refl _) lastc
        simp only [hhit, decide_false, ok_bind, Bool.false_eq_true, if_false, hfound]
        have hskip : ∀ t, t ≤ big.length →
            (∀ i, s + table c + 1 ≤ i → i < t → big[i]? ≠ some lastc) →
            Behind w big lastc t := by
          intro t ht hno
          apply hmoved.skip hlast ht
          intro i hi hit
          rcases Nat.eq_or_lt_of_le hi with rfl | hlt
          · exact hhit
          · exact hno i hlt hit
        cases found with
        | none => exact ⟨_, rfl, Nat.le_refl _, hskip _ (Nat.le_refl _) hfirst⟩
        | some t =>
          obtain ⟨⟨hle, hlt⟩, -, hbefore⟩ := hfirst
          exact ⟨_, rfl, by omega, hlt, hskip t (Nat.le_of_lt hlt) hbefore⟩

theorem fbmCheckEnd_spec (hlast : w[w.length - 1]? = some lastc) (hlen : w.length ≤ big.length + 1)
    (hend : big.length ≤ s) (hbehind : Behind w big lastc s) :
    ∃ found, fbmCheckEnd big w tail s = .ok found ∧ Unanchored w big tail found := by
  have hpos : 0 < w.length := by
    have h := (List.getElem?_eq_some_iff.1 hlast).1
    omega
  have hno : ∀ k, ¬ Matches w big k := by
    intro k hk
    have hle := hbehind k (hk.append lastc)
    have hroom := hk.1
    omega
  by_cases heq : s = big.length
  · refine ⟨_, ?_, unanchored_of_end tail hno hlen Iff.rfl⟩
    rw [fbmCheckEnd]
    cases tail with
    | false => simp
    | true =>
      simp only [heq, and_self, if_true, true_and, Nat.zero_add, ok_bind, decide_eq_true_eq,
        memEQ_eq (show big.length - (w.length - 1) + (w.length - 1) ≤ big.length by omega)
          (show 0 + (w.length - 1) ≤ w.length by omega)]
      split_ifs <;> rfl
  · refine ⟨none, ?_, Or.inr ⟨hno, ?_⟩⟩
    · rw [fbmCheckEnd, if_neg fun h => heq h.1]
      rfl
    · rintro k ⟨-, hk⟩
      obtain ⟨hk, hsame⟩ := matchesEnd_dropLast.1 hk
      have hwhole : Matches w (big ++ [lastc]) k := by
        rw [matches_iff_last hpos]
        refine ⟨by simp; omega, ?_, ?_⟩
        · rw [hk, List.getElem?_concat_length, hlast]
        · intro d hd
          rw [List.getElem?_append_left (by omega)]
          exact hsame d hd
      have hle := hbehind k hwhole
      omega

theorem fbmLoop_spec (hshort : w.length - 1 ≤ 0x7FFFFFFF) (hshifts : Shifts w table)
    (hlast : w[w.length - 1]? = some lastc) (hbehind : Behind w big lastc s)
    (hw : w.length - 1 ≤ s) (hs : s < big.length) (hrounds : big.length < rounds + s) :
    ∃ found, fbmLoop big w tail table lastc rounds s = .ok found ∧
      Unanchored w big tail found := by
  induction rounds generalizing s with
  | zero => omega
  | succ rounds ih =>
    obtain ⟨next, hrun, hgoes⟩ := fbmRound_spec hshort hshifts hlast hbehind hw hs
    rw [fbmLoop, hrun]
    cases next with
    | found k => exact ⟨some k, rfl, Preferred.of_some hgoes⟩
    | checkEnd t => exact fbmCheckEnd_spec hlast (by omega) hgoes.1 hgoes.2
    | top2 t =>
      obtain ⟨hlt, ht, hbehind⟩ := hgoes
      exact ih hbehind (by omega) ht (by omega)

theorem fbmSearch_spec (hshort : w.length - 1 ≤ 0x7FFFFFFF) (hshifts : Shifts w table)
    (hw : 0 < w.length) (hlen : w.length ≤ big.length) :
    ∃ found, fbmSearch big w ⟨tail, some table⟩ = .ok found ∧ Unanchored w big tail found := by
  obtain ⟨lastc, hlast⟩ : ∃ c, w[w.length - 1]? = some c :=
    ⟨_, List.getElem?_eq_getElem (by omega)⟩
  rw [fbmSearch, if_neg (Nat.not_lt.2 hlen)]
  simp only [if_pos (show w.length - 1 < big.length by omega), readAt_eq hlast, ok_bind]
  exact fbmLoop_spec hshort hshifts hlast (fun k _ => Nat.le_add_left _ k) (Nat.le_refl _)
    (by omega) (by omega)

end Searching

section Whole

variable {w big needle : List UInt8} {magic : Magic} {found : Option Nat} {tail multiline : Bool}
  {s k : Nat}

def withTail (needle : List UInt8) (tail : Bool) : List UInt8 :=
  if tail then needle ++ [newline] else needle

theorem littlestrOf_some (needle : List UInt8) (tail : Bool) :
    littlestrOf needle (some tail) = ⟨withTail needle tail,
      if (withTail needle tail).length = 0 then none
      else some ⟨tail, if 2 < (withTail needle tail).length then
        some (fillTable (withTail needle tail) (tableLen (withTail needle tail).length))
        else none⟩⟩ := by
  by_cases h : (withTail needle tail).length = 0
  · rw [if_pos h]
    exact if_pos h
  · rw [if_neg h]
    exact if_neg h

theorem Unanchored.plain (h : Unanchored w big false found) : Earliest (Matches w big) found := by
  rcases h with ⟨-, h⟩ | ⟨hno, h⟩
  · exact h
  · cases found with
    | none => exact hno
    | some k => exact absurd h.1.1 Bool.false_ne_true

theorem fbmInstr_uncompiled (w big : List UInt8) (multiline : Bool) :
    ∃ found, fbmInstr big ⟨w, none⟩ multiline = .ok found ∧ Earliest (Matches w big) found := by
  have hmode : ¬ (false = true ∧ multiline = false) := fun h => Bool.false_ne_true h.1
  simp only [fbmInstr, Option.map_none, Option.getD_none, if_neg hmode]
  by_cases hlen : big.length < w.length
  · obtain ⟨found, hrun, hfound, -⟩ := fbmShort_spec hlen false
    exact ⟨found, by rw [if_pos hlen, hrun], hfound.plain⟩
  · rw [if_neg hlen]
    match w, hlen with
    | [], _ =>
      refine ⟨some 0, rfl, ⟨Nat.zero_le _, fun d hd => absurd hd (Nat.not_lt_zero d)⟩, ?_⟩
      exact fun j _ => Nat.zero_le j
    | [c], hlen =>
      obtain ⟨found, hrun, hfound⟩ :=
        fbmSingle_spec (c := c) multiline (Nat.le_of_not_lt hlen) (nofun : false = true → _)
      rw [if_neg hmode] at hfound
      exact ⟨found, hrun, hfound.plain⟩
    | [c1, c2], hlen =>
      obtain ⟨found, hrun, hfound⟩ := fbmPair_spec c1 c2 (Nat.le_of_not_lt hlen) false
      exact ⟨found, hrun, hfound.plain⟩
    | a :: b :: c :: rest, _ => exact ninstr_spec (Nat.succ_pos _)

theorem fbmInstr_compiled (hpos : 0 < w.length)
    (htail : tail = true → w[w.length - 1]? = some newline)
    (hcase : (tail = true ∧ multiline = false) ∨ w.length ≤ 2 ^ 31 ∨ big.length < w.length) :
    ∃ found, fbmInstr big ⟨w, some ⟨tail, if 2 < w.length then
        some (fillTable w (tableLen w.length)) else none⟩⟩ multiline = .ok found ∧
      if tail = true ∧ multiline = false then Anchored w big found
      else Unanchored w big tail found := by
  simp only [fbmInstr, Option.map_some, Option.getD_some]
  by_cases hlen : big.length < w.length
  · obtain ⟨found, hrun, hfound, hanchored⟩ := fbmShort_spec hlen tail
    refine ⟨found, by rw [if_pos hlen, hrun], ?_⟩
    split_ifs with h
    · exact hanchored h.1
    · exact hfound
  · rw [if_neg hlen]
    match w, hlen, hpos, htail, hcase with
    | [c], hlen, _, htail, _ =>
      exact fbmSingle_spec multiline (Nat.le_of_not_lt hlen) fun h => Option.some.inj (htail h)
    | [c1, c2], hlen, _, htail, _ =>
      by_cases hmode : tail = true ∧ multiline = false
      · obtain rfl : c2 = newline := Option.some.inj (htail hmode.1)
        simp only [if_pos hmode]
        exact fbmPairAnchored_spec (Nat.le_of_not_lt hlen)
      · simp only [if_neg hmode]
        exact fbmPair_spec _ _ (Nat.le_of_not_lt hlen) tail
    | a :: b :: c :: rest, hlen, hpos, htail, hcase =>
      generalize hw : a :: b :: c :: rest = w at *
      have htwo : 2 < w.length := by
        rw [← hw]
        simp
      rw [if_neg (by omega), if_neg (by omega), if_neg (by omega)]
      by_cases hmode : tail = true ∧ multiline = false
      · simp only [if_pos hmode]
        exact fbmAnchored_spec (Nat.le_of_not_lt hlen) htwo (htail hmode.1)
      · simp only [if_neg hmode, if_pos htwo]
        have hshort : w.length ≤ 2 ^ 31 := by
          rcases hcase with h | h | h
          · exact absurd h hmode
          · exact h
          · exact absurd h hlen
        exact fbmSearch_spec (by omega) (fillTable_shifts htwo) hpos (Nat.le_of_not_lt hlen)

theorem compareBack_wrong (hsame : ∀ i, i < s → big[i]? = w[i]?) (hbig : s ≤ big.length)
    (hw : s ≤ w.length) (tmp : Int) (hne : tmp ≠ s) :
    compareBack big w s s tmp = .error .undefined ∨
      ∃ k, 0 < k ∧ compareBack big w s s tmp = .ok (some k) := by
  induction s generalizing tmp with
  | zero =>
    left
    rw [compareBack, if_neg (show tmp ≠ 0 from hne), ite_self]
    exact fun _ _ h => absurd h (Nat.zero_ne_add_one _)
  | succ s ih =>
    rw [compareBack]
    by_cases hzero : tmp = 0
    · rw [if_pos hzero]
      exact Or.inr ⟨s + 1, Nat.succ_pos s, rfl⟩
    · rw [if_neg hzero]
      by_cases hmin : tmp = -0x80000000
      · rw [if_pos hmin]
        exact Or.inl rfl
      · rw [if_neg hmin]
        simp only [sameAt_eq (show s < big.length by omega) (show s < w.length by omega), ok_bind,
          hsame s (Nat.lt_succ_self s), decide_true, if_true]
        exact ih (fun i hi => hsame i (Nat.lt_succ_of_lt hi)) (by omega) (by omega) _ (by omega)

theorem fbmInstr_long (hlong : 2 ^ 31 < w.length) (hmode : ¬ (tail = true ∧ multiline = false))
    (pad : List UInt8) :
    fbmInstr (w ++ pad) ⟨w, some ⟨tail, if 2 < w.length then
      some (fillTable w (tableLen w.length)) else none⟩⟩ multiline ≠ .ok (some 0) := by
  have htwo : 2 < w.length := by omega
  have hlen : w.length ≤ (w ++ pad).length := by
    rw [List.length_append]
    exact Nat.le_add_right _ _
  obtain ⟨lastc, hlast⟩ : ∃ c, w[w.length - 1]? = some c :=
    ⟨_, List.getElem?_eq_getElem (by omega)⟩
  have hget : ∀ i, i < w.length → (w ++ pad)[i]? = w[i]? := fun i hi =>
    List.getElem?_append_left hi
  have hzero := ((fillTable_shifts htwo).last lastc).2 hlast
  have hwrong := compareBack_wrong (w := w) (fun i hi => hget i (Nat.lt_of_lt_pred hi))
    (show w.length - 1 ≤ (w ++ pad).length by omega) (Nat.sub_le _ _)
    (toI32 (w.length - 1)) (by
      intro h
      have hle := (toI32_eq_iff _).1 h
      omega)
  simp only [fbmInstr, Option.map_some, Option.getD_some, if_neg (Nat.not_lt.2 hlen),
    if_neg (show w.length ≠ 0 by omega), if_neg (show w.length ≠ 1 by omega),
    if_neg (show w.length ≠ 2 by omega), if_neg hmode, fbmSearch, if_pos htwo,
    if_pos (show w.length - 1 < (w ++ pad).length by omega), readAt_eq hlast, ok_bind, fbmLoop,
    fbmRound, readAt_eq ((hget _ (by omega)).trans hlast), if_pos hzero, fbmCompare]
  rcases hwrong with hwrong | ⟨k, hk, hwrong⟩
  · rw [hwrong]
    exact nofun
  · rw [hwrong]
    intro h
    have hzero : k = 0 := Option.some.inj (Except.ok.inj h)
    omega

theorem Wanted.first {compiled : Option Bool} (hmode : ¬ (compiled = some true ∧ multiline = false))
    (h : Wanted needle big compiled multiline found)
    (h0 : Matches (withTail needle (compiled.getD false)) big 0) : found = some 0 := by
  have hplain : ∀ w, Matches w big 0 → Earliest (Matches w big) found → found = some 0 := by
    intro w h0 h
    exact h.unique ⟨h0, fun j _ => Nat.zero_le j⟩
  match compiled, multiline, hmode, h, h0 with
  | none, _, _, h, h0 => exact hplain _ h0 h
  | some false, _, _, h, h0 => exact hplain _ h0 h
  | some true, false, hmode, _, _ => exact absurd ⟨rfl, rfl⟩ hmode
  | some true, true, _, h, h0 =>
    rcases h with ⟨-, h⟩ | ⟨hno, -⟩
    · exact hplain _ h0 h
    · exact absurd h0 (hno 0)

theorem finds_of_compiled (hpos : 0 < (withTail needle tail).length)
    (hcase : (tail = true ∧ multiline = false) ∨ (withTail needle tail).length ≤ 2 ^ 31 ∨
      big.length < (withTail needle tail).length) :
    Finds needle big (some tail) multiline := by
  obtain ⟨found, hrun, hfound⟩ := fbmInstr_compiled hpos (by
    rintro rfl
    simp [withTail]) hcase
  refine ⟨found, ?_, ?_⟩
  · rw [littlestrOf_some, if_neg (by omega)]
    exact hrun
  · cases tail with
    | false =>
      rw [if_neg fun h => Bool.false_ne_true h.1] at hfound
      exact hfound.plain
    | true =>
      have hdrop : (withTail needle true).dropLast = needle := List.dropLast_concat
      cases multiline with
      | false =>
        rw [if_pos ⟨rfl, rfl⟩, Anchored, hdrop] at hfound
        exact hfound
      | true =>
        rw [if_neg nofun, Unanchored, hdrop] at hfound
        simp only [true_and] at hfound
        exact hfound

/-- The search finds what it should but for table searches for more than 2^31 bytes, whose number
does not fit the `I32` that counts them down. -/
theorem fbmInstr_finds (needle : List UInt8) (compiled : Option Bool) (multiline : Bool) (n : Nat) :
    (∀ big : List UInt8, big.length = n → Finds needle big compiled multiline) ↔
      compiled = none ∨ (compiled = some true ∧ multiline = false) ∨
        (littlestrOf needle compiled).bytes.length ≤ 2 ^ 31 ∨
        n < (littlestrOf needle compiled).bytes.length := by
  cases compiled with
  | none =>
    refine iff_of_true ?_ (Or.inl rfl)
    intro big _
    obtain ⟨found, hrun, hfound⟩ := fbmInstr_uncompiled needle big multiline
    exact ⟨found, hrun, hfound⟩
  | some tail =>
    simp only [littlestrOf_some, reduceCtorEq, false_or, Option.some.injEq]
    constructor
    · intro h
      by_contra hno
      simp only [not_or, Nat.not_le, Nat.not_lt] at hno
      obtain ⟨hmode, hlong, hn⟩ := hno
      let pad := List.replicate (n - (withTail needle tail).length) (0 : UInt8)
      obtain ⟨found, hrun, hwanted⟩ := h (withTail needle tail ++ pad) (by
        rw [List.length_append, List.length_replicate]
        omega)
      have hfirst := hwanted.first (by simpa using hmode) (by
        simp only [Option.getD_some, Matches, Nat.zero_add, List.length_append]
        exact ⟨Nat.le_add_right _ _, fun d hd => List.getElem?_append_left hd⟩)
      rw [littlestrOf_some, if_neg (by omega), hfirst] at hrun
      exact fbmInstr_long hlong (by simpa using hmode) pad hrun
    · intro hcase big hbig
      by_cases hpos : 0 < (withTail needle tail).length
      · exact finds_of_compiled hpos (by rwa [hbig])
      · have hnil : withTail needle tail = [] := List.eq_nil_of_length_eq_zero (by omega)
        obtain ⟨rfl, rfl⟩ : tail = false ∧ needle = [] := by
          cases tail with
          | false => exact ⟨rfl, hnil⟩
          | true => exact absurd hnil (List.append_ne_nil_of_right_ne_nil _ (List.cons_ne_nil _ _))
        obtain ⟨found, hrun, hfound⟩ := fbmInstr_uncompiled [] big multiline
        exact ⟨found, hrun, hfound⟩

/-- Of 2^32 + 1 equal bytes none is compared but the last. -/
theorem fbmInstr_finds_not :
    ¬ Finds (List.replicate (2 ^ 32 + 1) 0x61) (List.replicate (2 ^ 32 + 1) 0x61) (some false)
      false := by
  rintro ⟨found, hrun, hwanted⟩
  have hlen : (withTail (List.replicate (2 ^ 32 + 1) 0x61) false).length = 2 ^ 32 + 1 :=
    List.length_replicate
  have hmode : ¬ ((some false : Option Bool) = some true ∧ false = false) := by
    decide
  have hfirst := hwanted.first hmode ⟨Nat.le_of_eq (Nat.zero_add _), fun d _ => by
    rw [Nat.zero_add]
    rfl⟩
  rw [littlestrOf_some, if_neg (by omega), hfirst] at hrun
  have hlong : 2 ^ 31 < (withTail (List.replicate (2 ^ 32 + 1) 0x61) false).length := by omega
  apply fbmInstr_long hlong (fun h => Bool.false_ne_true h.1) []
  rw [List.append_nil]
  exact hrun

end Whole

end XPerl.StringOps.Fbm
