import XPerl.Utf8.Lengths

/-! Hops over characters, from any position of a string. -/

namespace XPerl.Utf8

open XPerl.Framework

variable {bytes U T bs cs : List U8} {b c : U8} {u r vs : List CodePoint} {i n : Nat} {off : Int}

/-- Why a hop ends without a position: it reads outside of the string, or starts at its end when
nobody asks for the remaining count. -/
inductive HopError where
  | outside
  | startOutOfBounds
deriving DecidableEq

def readAt (bytes : List U8) (s : Nat) : Except HopError U8 :=
  match bytes[s]? with
  | some c => .ok c
  | none => .error .outside

def nextStart (bytes : List U8) : Nat → Nat → Int → Except HopError (Nat × Int)
  | 0, s, off => .ok (s, off)
  | n + 1, s, off => do
    let c ← readAt bytes s
    if ¬ isContinuation c then return (s, off - 1)
    else if s + 1 < bytes.length then nextStart bytes n (s + 1) off
    else return (s + 1, off)

def hopLoop (bytes : List U8) : Nat → Nat → Int → Except HopError (Nat × Int)
  | 0, s, off => .ok (s, off)
  | n + 1, s, off =>
    if 0 < off ∧ s < bytes.length then do
      let c ← readAt bytes s
      if bytes.length - s < utf8Skip c then return (bytes.length, off)
      else hopLoop bytes n (s + utf8Skip c) (off - 1)
    else .ok (s, off)

/-- `utf8_hop_forward_overshoot`: the position and `*remaining`, where it is asked for. -/
def utf8HopForwardOvershoot (bytes : List U8) (s : Nat) (off : Int) (remaining : Bool) :
    Except HopError (Nat × Int) :=
  if off = 0 then .ok (s, off)
  else if bytes.length ≤ s ∧ ¬ remaining then .error .startOutOfBounds
  else do
    let c ← readAt bytes s
    let (s, off) ← if isContinuation c then nextStart bytes (bytes.length - s) s off
      else .ok (s, off)
    hopLoop bytes bytes.length s off

def previousStart (bytes : List U8) : Nat → Int → Except HopError (Nat × Int)
  | 0, off => .ok (0, off)
  | s + 1, off => do
    let c ← readAt bytes s
    if ¬ isContinuation c then return (s, off + 1)
    else if 0 < s then previousStart bytes s off
    else return (s, off)

def hopBackLoop (bytes : List U8) : Nat → Nat → Int → Except HopError (Nat × Int)
  | 0, s, off => .ok (s, off)
  | n + 1, s, off =>
    if off < 0 ∧ 0 < s then do
      let (s, off) ← previousStart bytes s off
      hopBackLoop bytes n s off
    else .ok (s, off)

def utf8HopBackOvershoot (bytes : List U8) (s : Nat) (off : Int) : Except HopError (Nat × Int) :=
  hopBackLoop bytes s s off

def utf8HopOvershoot (bytes : List U8) (s : Nat) (off : Int) (remaining : Bool) :
    Except HopError (Nat × Int) :=
  if 0 ≤ off then utf8HopForwardOvershoot bytes s off remaining
  else utf8HopBackOvershoot bytes s off

/-- `do { s++; } while (UTF8_IS_CONTINUATION(*s))` -/
def skipForward (bytes : List U8) : Nat → Nat → Except HopError Nat
  | 0, _ => .error .outside
  | n + 1, s => do
    let c ← readAt bytes (s + 1)
    if isContinuation c then skipForward bytes n (s + 1) else return s + 1

def stepForward (bytes : List U8) : Nat → Nat → Except HopError Nat
  | 0, s => .ok s
  | n + 1, s => do
    let c ← readAt bytes s
    stepForward bytes n (s + utf8Skip c)

def skipBack (bytes : List U8) : Nat → Except HopError Nat
  | 0 => .error .outside
  | s + 1 => do
    let c ← readAt bytes s
    if isContinuation c then skipBack bytes s else return s

def stepBack (bytes : List U8) : Nat → Nat → Except HopError Nat
  | 0, s => .ok s
  | n + 1, s => do
    let s ← skipBack bytes s
    stepBack bytes n s

def utf8Hop (bytes : List U8) (s : Nat) (off : Int) : Except HopError Nat :=
  if 0 < off then do
    let c ← readAt bytes s
    if isContinuation c then
      let s ← skipForward bytes bytes.length s
      stepForward bytes (off - 1).toNat s
    else stepForward bytes off.toNat s
  else stepBack bytes (-off).toNat s

/-- The bytes of a text. -/
def textOf (vs : List CodePoint) : List U8 := characters.encodeAll vs

@[simp] theorem textOf_append (u r : List CodePoint) : textOf (u ++ r) = textOf u ++ textOf r :=
  characters.encodeAll_append u r

@[simp] theorem textOf_nil : textOf [] = [] := rfl

theorem length_textOf (vs : List CodePoint) : vs.length ≤ (textOf vs).length :=
  (length_encodeAll vs).1

/-- A position is at a byte of the first character behind it, or at the end. -/
def Inside (r : List CodePoint) (i : Nat) : Prop :=
  (r = [] → i = 0) ∧ ∀ v vs, r = v :: vs → i < (encoding v).length

def upTo (u r : List CodePoint) (i : Nat) : List CodePoint := if i = 0 then u else u ++ r.take 1

/-- Where a hop leads, by whole characters: forward from the character that the position is in,
back from its end; and what remains. -/
def hopped (u r : List CodePoint) (i : Nat) (off : Int) : Nat × Int :=
  if off = 0 then ((textOf u).length + i, 0)
  else if 0 < off then
    let m := min off.toNat r.length
    ((textOf (u ++ r.take m)).length, off - m)
  else
    let us := upTo u r i
    let m := min (-off).toNat us.length
    ((textOf (us.take (us.length - m))).length, off + m)

/-- The hop that counts leads where it should; back by what has moved leads to the same character
start; and the hop that does not count agrees where nothing remains. -/
structure HopsRight (u r : List CodePoint) (i : Nat) (off : Int) : Prop where
  hop : utf8HopOvershoot (textOf (u ++ r)) ((textOf u).length + i) off true =
    .ok (hopped u r i off)
  back : i = 0 → 0 ≤ off →
    utf8HopOvershoot (textOf (u ++ r)) (hopped u r i off).1 (-(off - (hopped u r i off).2)) true =
      .ok ((textOf u).length, 0)
  plain : (hopped u r i off).2 = 0 →
    utf8Hop (textOf (u ++ r)) ((textOf u).length + i) off = .ok (hopped u r i off).1

theorem exists_position (vs : List CodePoint) {p : Nat} (h : p ≤ (textOf vs).length) :
    ∃ u r i, vs = u ++ r ∧ Inside r i ∧ p = (textOf u).length + i := by
  obtain ⟨u, r, q, hvs, htake, hrest, hcut⟩ :=
    characters.cut (List.take_append_drop p (textOf vs))
  refine ⟨u, r, q.length, hvs, ⟨fun hr => ?_, fun v vs' heq => hcut v vs' heq⟩, ?_⟩
  · rw [hr, Coding.encodeAll_nil, List.append_eq_nil_iff] at hrest
    rw [hrest.1]
    rfl
  · have hlength := congrArg List.length htake
    rwa [List.length_take_of_le h, List.length_append] at hlength

theorem readAt_append (U : List U8) (c : U8) (T : List U8) :
    readAt (U ++ c :: T) U.length = .ok c := by
  rw [readAt, List.getElem?_append_right (Nat.le_refl _), Nat.sub_self]
  rfl

theorem readAt_end (bytes : List U8) : readAt bytes bytes.length = .error .outside := by
  rw [readAt, List.getElem?_eq_none (Nat.le_refl _)]

theorem textOf_cons (v : CodePoint) (r : List CodePoint) :
    ∃ b bs, encoding v = b :: bs ∧ utf8Skip b = bs.length + 1 ∧ isContinuation b = false ∧
      (∀ x ∈ bs, isContinuation x = true) ∧ textOf [v] = b :: bs ∧
      textOf (v :: r) = b :: (bs ++ textOf r) := by
  obtain ⟨b, bs, hencoding, hskip, hb, hbs⟩ := encoding_skip v
  have hcode : characters.encode v = b :: bs := hencoding
  refine ⟨b, bs, hencoding, hskip, hb, hbs, ?_, ?_⟩
  · rw [textOf, Coding.encodeAll_cons, hcode, Coding.encodeAll_nil, List.append_nil]
  · rw [textOf, Coding.encodeAll_cons, hcode]
    rfl

theorem read_start (u : List CodePoint) (v : CodePoint) (r : List CodePoint) :
    ∃ b, isContinuation b = false ∧ readAt (textOf (u ++ v :: r)) (textOf u).length = .ok b ∧
      (textOf (u ++ [v])).length = (textOf u).length + utf8Skip b ∧ 0 < utf8Skip b := by
  obtain ⟨b, bs, -, hskip, hb, -, hone, hcons⟩ := textOf_cons v r
  refine ⟨b, hb, ?_, ?_, by omega⟩
  · rw [textOf_append, hcons]
    exact readAt_append _ _ _
  · rw [textOf_append, hone, hskip, List.length_append, List.length_cons]

variable {v : CodePoint} {m : Nat}

theorem textOf_inside (hi : 0 < i) (hi' : i < (encoding v).length)
    (r : List CodePoint) :
    ∃ b bs cs, textOf [v] = b :: bs ++ cs ∧ textOf (v :: r) = b :: bs ++ (cs ++ textOf r) ∧
      bs.length + 1 = i ∧ cs ≠ [] ∧ isContinuation b = false ∧
      (∀ x ∈ bs, isContinuation x = true) ∧ ∀ x ∈ cs, isContinuation x = true := by
  obtain ⟨b, bs, hencoding, -, hb, hbs, hone, hcons⟩ := textOf_cons v r
  rw [hencoding, List.length_cons] at hi'
  refine ⟨b, bs.take (i - 1), bs.drop (i - 1), ?_, ?_, ?_, ?_, hb,
    fun x hx => hbs x (List.mem_of_mem_take hx), fun x hx => hbs x (List.mem_of_mem_drop hx)⟩
  · rw [hone, List.cons_append, List.take_append_drop]
  · rw [hcons, List.cons_append, ← List.append_assoc, List.take_append_drop]
  · rw [List.length_take]
    omega
  · rw [← List.length_pos_iff, List.length_drop]
    omega

theorem nextStart_before (U : List U8) (hcs : ∀ x ∈ cs, isContinuation x = true)
    (hb : isContinuation b = false) (T : List U8) (hn : cs.length < n) :
    nextStart (U ++ (cs ++ b :: T)) n U.length off = .ok (U.length + cs.length, off - 1) := by
  induction cs generalizing U n with
  | nil =>
    obtain ⟨n, rfl⟩ : ∃ m, n = m + 1 := ⟨n - 1, by omega⟩
    rw [nextStart, List.nil_append, readAt_append]
    simp only [bind, Except.bind, pure, Except.pure]
    rw [if_pos (by simp [hb])]
    rfl
  | cons c cs ih =>
    obtain ⟨n, rfl⟩ : ∃ m, n = m + 1 := ⟨n - 1, by omega⟩
    have hrest := ih (U ++ [c]) (fun x hx => hcs x (List.mem_cons_of_mem c hx))
      (show cs.length < n by simpa using hn)
    rw [List.append_assoc, List.singleton_append, List.length_append, List.length_singleton]
      at hrest
    rw [nextStart, List.cons_append, readAt_append]
    simp only [bind, Except.bind, pure, Except.pure]
    rw [if_neg (by simp [hcs c List.mem_cons_self]), if_pos (by simp), hrest, List.length_cons]
    congr 2
    omega

theorem nextStart_end (U : List U8) (hcs : ∀ x ∈ cs, isContinuation x = true) (hne : cs ≠ [])
    (hn : cs.length ≤ n) :
    nextStart (U ++ cs) n U.length off = .ok (U.length + cs.length, off) := by
  induction cs generalizing U n with
  | nil => exact absurd rfl hne
  | cons c cs ih =>
    obtain ⟨n, rfl⟩ : ∃ m, n = m + 1 := ⟨n - 1, by rw [List.length_cons] at hn; omega⟩
    rw [nextStart, readAt_append]
    simp only [bind, Except.bind, pure, Except.pure]
    rw [if_neg (by simp [hcs c List.mem_cons_self])]
    cases cs with
    | nil => rw [if_neg (by simp)]; rfl
    | cons d cs =>
      have hrest := ih (U ++ [c]) (fun x hx => hcs x (List.mem_cons_of_mem c hx))
        (List.cons_ne_nil d cs) (show (d :: cs).length ≤ n by simpa using hn)
      rw [List.append_assoc, List.singleton_append, List.length_append, List.length_singleton]
        at hrest
      rw [if_pos (by simp), hrest, List.length_cons (a := c)]
      congr 2
      omega

theorem hopLoop_spec (u r : List CodePoint) (m : Nat) (hn : r.length ≤ n) :
    hopLoop (textOf (u ++ r)) n (textOf u).length m =
      .ok ((textOf (u ++ r.take m)).length, (m : Int) - min m r.length) := by
  induction r generalizing u n m with
  | nil => cases n <;> simp [hopLoop]
  | cons v r ih =>
    obtain ⟨n, rfl⟩ : ∃ m, n = m + 1 := ⟨n - 1, by rw [List.length_cons] at hn; omega⟩
    cases m with
    | zero => simp [hopLoop]
    | succ m =>
      obtain ⟨b, -, hread, hlength, hskip⟩ := read_start u v r
      have hrest := ih (u ++ [v]) m (show r.length ≤ n by simpa using hn)
      have hinside : (textOf (u ++ [v])).length ≤ (textOf (u ++ v :: r)).length := by
        rw [List.append_cons u v r, textOf_append (u ++ [v]) r, List.length_append]
        exact Nat.le_add_right _ _
      rw [List.append_assoc, List.append_assoc, List.singleton_append, List.singleton_append,
        hlength] at hrest
      rw [hopLoop, if_pos ⟨by omega, by omega⟩, hread]
      simp only [bind, Except.bind, pure, Except.pure]
      rw [if_neg (by omega), show ((m + 1 : Nat) : Int) - 1 = m by omega, hrest,
        List.take_succ_cons, List.length_cons]
      congr 2
      omega

theorem read_inside {u vs : List CodePoint} (hi : 0 < i)
    (hi' : i < (encoding v).length) (hvs : i = 0 ∨ 2 ≤ (v :: vs).length) :
    ∃ w ws U c cs b T, vs = w :: ws ∧ textOf (u ++ v :: w :: ws) = U ++ c :: (cs ++ b :: T) ∧
      (textOf u).length + i = U.length ∧ readAt (textOf (u ++ v :: w :: ws)) U.length = .ok c ∧
      (textOf (u ++ [v])).length = U.length + (c :: cs).length ∧
      (∀ x ∈ c :: cs, isContinuation x = true) ∧ isContinuation b = false := by
  obtain ⟨b, bs, cs, hone, hcons, hlength, hne, -, -, hcs⟩ := textOf_inside hi hi' vs
  obtain ⟨w, ws, rfl⟩ : ∃ w ws, vs = w :: ws := by
    cases vs with
    | nil => simp at hvs; omega
    | cons w ws => exact ⟨w, ws, rfl⟩
  obtain ⟨b', bs', -, -, hb', -, -, hcons'⟩ := textOf_cons w ws
  obtain ⟨c, cs', rfl⟩ := List.exists_cons_of_ne_nil hne
  have hbytes : textOf (u ++ v :: w :: ws) =
      (textOf u ++ b :: bs) ++ c :: (cs' ++ b' :: (bs' ++ textOf ws)) := by
    rw [textOf_append, hcons, hcons', List.append_assoc]
    rfl
  refine ⟨w, ws, _, c, cs', b', _, rfl, hbytes, ?_, ?_, ?_, hcs, hb'⟩
  · rw [List.length_append, List.length_cons, hlength]
  · rw [hbytes]
    exact readAt_append _ _ _
  · rw [textOf_append, hone]
    simp
    omega

theorem forward_spec (u r : List CodePoint) (h : Inside r i) (hm : 0 < m)
    (hr : r ≠ [] ∧ (i = 0 ∨ 2 ≤ r.length)) :
    utf8HopForwardOvershoot (textOf (u ++ r)) ((textOf u).length + i) m true =
      .ok ((textOf (u ++ r.take m)).length, (m : Int) - min m r.length) := by
  obtain ⟨v, vs, rfl⟩ := List.exists_cons_of_ne_nil hr.1
  have hlong := length_textOf (u ++ v :: vs)
  rw [List.length_append] at hlong
  rw [utf8HopForwardOvershoot, if_neg (by omega), if_neg (by simp)]
  rcases Nat.eq_zero_or_pos i with rfl | hi
  · obtain ⟨b, hb, hread, -⟩ := read_start u v vs
    rw [Nat.add_zero, hread]
    simp only [bind, Except.bind]
    rw [if_neg (by simp [hb])]
    exact hopLoop_spec u (v :: vs) m (by omega)
  · -- The first step ends the character that is already begun.
    obtain ⟨w, ws, U, c, cs, b, T, rfl, hbytes, hposition, hread, hnext, hcs, hb⟩ :=
      read_inside (u := u) hi (h.2 v vs rfl) hr.2
    have hloop := hopLoop_spec (n := (textOf (u ++ v :: w :: ws)).length) (u ++ [v]) (w :: ws)
      (m - 1) (by simp only [List.length_cons] at hlong ⊢; omega)
    rw [List.append_assoc, List.append_assoc, List.singleton_append, List.singleton_append] at hloop
    have hstart : nextStart (textOf (u ++ v :: w :: ws))
        ((textOf (u ++ v :: w :: ws)).length - U.length) U.length m =
        .ok ((textOf (u ++ [v])).length, (m : Int) - 1) := by
      rw [hnext, hbytes]
      refine nextStart_before _ hcs hb _ ?_
      simp only [List.length_append, List.length_cons]
      omega
    rw [hposition, hread]
    simp only [bind, Except.bind]
    rw [if_pos (hcs c List.mem_cons_self), hstart]
    dsimp only
    rw [show (m : Int) - 1 = ((m - 1 : Nat) : Int) by omega, hloop]
    obtain ⟨m, rfl⟩ : ∃ k, m = k + 1 := ⟨m - 1, by omega⟩
    rw [Nat.add_sub_cancel, List.take_succ_cons, List.length_cons (a := v)]
    congr 2
    omega

theorem forward_end (u : List CodePoint) (hoff : 0 < off) :
    utf8HopForwardOvershoot (textOf u) (textOf u).length off true = .error .outside := by
  rw [utf8HopForwardOvershoot, if_neg (by omega), if_neg (by simp), readAt_end]
  rfl

theorem forward_last (u : List CodePoint) (hi : 0 < i)
    (hi' : i < (encoding v).length) (hoff : 0 < off) :
    utf8HopForwardOvershoot (textOf (u ++ [v])) ((textOf u).length + i) off true =
      .ok ((textOf (u ++ [v])).length, off) := by
  obtain ⟨b, bs, cs, hone, -, hlength, hne, -, -, hcs⟩ := textOf_inside hi hi' []
  obtain ⟨c, cs', rfl⟩ := List.exists_cons_of_ne_nil hne
  have hbytes : textOf (u ++ [v]) = (textOf u ++ b :: bs) ++ (c :: cs') := by
    rw [textOf_append, hone, List.append_assoc]
  have hposition : (textOf u).length + i = (textOf u ++ b :: bs).length := by
    rw [List.length_append, List.length_cons, hlength]
  have hread : readAt (textOf (u ++ [v])) (textOf u ++ b :: bs).length = .ok c := by
    rw [hbytes]
    exact readAt_append _ _ _
  have hend : nextStart (textOf (u ++ [v]))
      ((textOf (u ++ [v])).length - (textOf u ++ b :: bs).length)
      (textOf u ++ b :: bs).length off = .ok ((textOf (u ++ [v])).length, off) := by
    have hlength' : (textOf u ++ b :: bs ++ c :: cs').length =
        (textOf u ++ b :: bs).length + (c :: cs').length := List.length_append
    rw [hbytes, hlength']
    exact nextStart_end _ hcs hne (by omega)
  have hstay (n : Nat) : hopLoop (textOf (u ++ [v])) n (textOf (u ++ [v])).length off =
      .ok ((textOf (u ++ [v])).length, off) := by
    cases n <;> simp [hopLoop]
  rw [utf8HopForwardOvershoot, if_neg (by omega), if_neg (by simp), hposition, hread]
  simp only [bind, Except.bind]
  rw [if_pos (hcs c List.mem_cons_self), hend]
  exact hstay _

theorem stepForward_spec (u : List CodePoint) {r : List CodePoint} (hm : m ≤ r.length) :
    stepForward (textOf (u ++ r)) m (textOf u).length = .ok (textOf (u ++ r.take m)).length := by
  induction m generalizing u r with
  | zero => rw [List.take_zero, List.append_nil]; rfl
  | succ m ih =>
    obtain ⟨v, r, rfl⟩ : ∃ v vs, r = v :: vs := by
      cases r with
      | nil => simp at hm
      | cons v r => exact ⟨v, r, rfl⟩
    obtain ⟨b, -, hread, hlength, -⟩ := read_start u v r
    have hrest := ih (u ++ [v]) (r := r) (by simpa using hm)
    rw [List.append_assoc, List.append_assoc, List.singleton_append, List.singleton_append,
      hlength] at hrest
    rw [stepForward, hread]
    simp only [bind, Except.bind]
    rw [hrest, List.take_succ_cons]

theorem skipForward_spec (U : List U8) (c : U8) (hcs : ∀ x ∈ cs, isContinuation x = true)
    (hb : isContinuation b = false) (T : List U8) (hn : cs.length < n) :
    skipForward (U ++ c :: (cs ++ b :: T)) n U.length = .ok (U.length + (cs.length + 1)) := by
  induction cs generalizing U c n with
  | nil =>
    obtain ⟨n, rfl⟩ : ∃ m, n = m + 1 := ⟨n - 1, by omega⟩
    have hread := readAt_append (U ++ [c]) b T
    rw [List.append_assoc, List.singleton_append, List.length_append, List.length_singleton]
      at hread
    rw [skipForward, List.nil_append, hread]
    simp only [bind, Except.bind, pure, Except.pure]
    rw [if_neg (by simp [hb])]
    rfl
  | cons d cs ih =>
    obtain ⟨n, rfl⟩ : ∃ m, n = m + 1 := ⟨n - 1, by omega⟩
    have hread := readAt_append (U ++ [c]) d (cs ++ b :: T)
    have hrest := ih (U ++ [c]) d (fun x hx => hcs x (List.mem_cons_of_mem d hx))
      (show cs.length < n by simpa using hn)
    rw [List.append_assoc, List.singleton_append, List.length_append, List.length_singleton]
      at hread hrest
    rw [skipForward, List.cons_append, hread]
    simp only [bind, Except.bind, pure, Except.pure]
    rw [if_pos (hcs d List.mem_cons_self), hrest, List.length_cons]
    congr 1
    omega

theorem plain_forward_spec (u r : List CodePoint) (h : Inside r i) (hm : 0 < m)
    (hr : r ≠ [] ∧ (i = 0 ∨ 2 ≤ r.length)) (hle : m ≤ r.length) :
    utf8Hop (textOf (u ++ r)) ((textOf u).length + i) m = .ok (textOf (u ++ r.take m)).length := by
  obtain ⟨v, vs, rfl⟩ := List.exists_cons_of_ne_nil hr.1
  rw [utf8Hop, if_pos (by omega)]
  rcases Nat.eq_zero_or_pos i with rfl | hi
  · obtain ⟨b, hb, hread, -⟩ := read_start u v vs
    rw [Nat.add_zero, hread]
    simp only [bind, Except.bind]
    rw [if_neg (by simp [hb])]
    exact stepForward_spec u hle
  · obtain ⟨w, ws, U, c, cs, b, T, rfl, hbytes, hposition, hread, hnext, hcs, hb⟩ :=
      read_inside (u := u) hi (h.2 v vs rfl) hr.2
    have hskip : skipForward (textOf (u ++ v :: w :: ws)) (textOf (u ++ v :: w :: ws)).length
        U.length = .ok (textOf (u ++ [v])).length := by
      rw [hnext, hbytes]
      refine skipForward_spec _ c (fun x hx => hcs x (List.mem_cons_of_mem c hx)) hb _ ?_
      simp only [List.length_append, List.length_cons]
      omega
    obtain ⟨m, rfl⟩ : ∃ k, m = k + 1 := ⟨m - 1, by omega⟩
    have hstep := stepForward_spec (u ++ [v]) (r := w :: ws) (m := m) (by simpa using hle)
    rw [List.append_assoc, List.append_assoc, List.singleton_append, List.singleton_append] at hstep
    rw [hposition, hread]
    simp only [bind, Except.bind]
    rw [if_pos (hcs c List.mem_cons_self), hskip]
    dsimp only
    rw [show (((m + 1 : Nat) : Int) - 1).toNat = m by omega, hstep]
    rfl

theorem previousStart_spec (U : List U8) (hb : isContinuation b = false)
    (hbs : ∀ x ∈ bs, isContinuation x = true) (T : List U8) (off : Int) :
    previousStart (U ++ (b :: bs ++ T)) (U.length + (bs.length + 1)) off =
        .ok (U.length, off + 1) ∧
      skipBack (U ++ (b :: bs ++ T)) (U.length + (bs.length + 1)) = .ok U.length := by
  induction bs using List.reverseRecOn generalizing T with
  | nil =>
    rw [List.length_nil, previousStart, skipBack, List.cons_append, readAt_append]
    simp only [bind, Except.bind, pure, Except.pure]
    rw [if_pos (by simp [hb]), if_neg (by simp [hb])]
    exact ⟨rfl, rfl⟩
  | append_singleton bs c ih =>
    have hc := hbs c (by simp)
    have hrest := ih (fun x hx => hbs x (List.mem_append_left [c] hx)) (c :: T)
    have hread : readAt (U ++ (b :: (bs ++ [c]) ++ T)) (U.length + (bs.length + 1)) = .ok c := by
      have happend := readAt_append (U ++ b :: bs) c T
      rw [List.length_append, List.length_cons] at happend
      rw [← happend]
      congr 1
      simp
    have hbytes : U ++ (b :: bs ++ c :: T) = U ++ (b :: (bs ++ [c]) ++ T) := by simp
    rw [hbytes] at hrest
    rw [List.length_append, List.length_singleton, ← Nat.add_assoc, previousStart, skipBack, hread]
    simp only [bind, Except.bind, pure, Except.pure]
    rw [if_neg (by simp [hc]), if_pos (by omega), if_pos hc]
    exact hrest

theorem hopBackLoop_spec (u : List CodePoint) (T : List U8) (d : Nat) (hn : u.length ≤ n) :
    hopBackLoop (textOf u ++ T) n (textOf u).length (-(d : Int)) =
        .ok ((textOf (u.take (u.length - d))).length, -(d : Int) + min d u.length) ∧
      (d ≤ u.length → stepBack (textOf u ++ T) d (textOf u).length =
        .ok (textOf (u.take (u.length - d))).length) := by
  induction u using List.reverseRecOn generalizing T n d with
  | nil =>
    refine ⟨by cases n <;> simp [hopBackLoop], fun hd => ?_⟩
    obtain rfl : d = 0 := by simpa using hd
    rfl
  | append_singleton u v ih =>
    rw [List.length_append, List.length_singleton] at hn ⊢
    obtain ⟨n, rfl⟩ : ∃ m, n = m + 1 := ⟨n - 1, by omega⟩
    cases d with
    | zero =>
      rw [Nat.sub_zero, List.take_of_length_le (by simp)]
      exact ⟨by simp [hopBackLoop], fun _ => rfl⟩
    | succ d =>
      obtain ⟨b, bs, -, -, hb, hbs, hone, -⟩ := textOf_cons v []
      obtain ⟨hprevious, hskip⟩ := previousStart_spec (textOf u) hb hbs T (-((d + 1 : Nat) : Int))
      obtain ⟨hloop, hstep⟩ := ih (b :: bs ++ T) d (show u.length ≤ n by omega)
      have hbytes : textOf (u ++ [v]) ++ T = textOf u ++ (b :: bs ++ T) := by
        rw [textOf_append, hone, List.append_assoc]
      have hlength : (textOf (u ++ [v])).length = (textOf u).length + (bs.length + 1) := by
        rw [textOf_append, hone, List.length_append, List.length_cons]
      have htake : (u ++ [v]).take (u.length + 1 - (d + 1)) = u.take (u.length - d) := by
        rw [show u.length + 1 - (d + 1) = u.length - d by omega,
          List.take_append_of_le_length (by omega)]
      rw [hbytes, hlength, htake]
      constructor
      · rw [hopBackLoop, if_pos ⟨by omega, by omega⟩, hprevious]
        simp only [bind, Except.bind]
        rw [show -((d + 1 : Nat) : Int) + 1 = -(d : Int) by omega, hloop]
        congr 2
        omega
      · intro hd
        rw [stepBack, hskip]
        simp only [bind, Except.bind]
        exact hstep (by omega)

theorem back_spec (u r : List CodePoint) (h : Inside r i) {d : Nat} (hd : 0 < d) :
    utf8HopBackOvershoot (textOf (u ++ r)) ((textOf u).length + i) (-(d : Int)) =
        .ok ((textOf ((upTo u r i).take ((upTo u r i).length - d))).length,
          -(d : Int) + min d (upTo u r i).length) ∧
      (d ≤ (upTo u r i).length → stepBack (textOf (u ++ r)) d ((textOf u).length + i) =
        .ok (textOf ((upTo u r i).take ((upTo u r i).length - d))).length) := by
  have hlong := length_textOf u
  rcases Nat.eq_zero_or_pos i with rfl | hi
  · rw [utf8HopBackOvershoot, upTo, if_pos rfl, Nat.add_zero, textOf_append]
    exact hopBackLoop_spec u (textOf r) d hlong
  · obtain ⟨v, vs, rfl⟩ : ∃ v vs, r = v :: vs := by
      cases r with
      | nil =>
        have hzero := h.1 rfl
        omega
      | cons v vs => exact ⟨v, vs, rfl⟩
    obtain ⟨b, bs, cs, hone, hcons, hlength, -, hb, hbs, -⟩ := textOf_inside hi (h.2 v vs rfl) vs
    obtain ⟨d, rfl⟩ : ∃ k, d = k + 1 := ⟨d - 1, by omega⟩
    obtain ⟨hprevious, hskip⟩ :=
      previousStart_spec (textOf u) hb hbs (cs ++ textOf vs) (-((d + 1 : Nat) : Int))
    obtain ⟨hloop, hstep⟩ := hopBackLoop_spec (n := (textOf u).length + bs.length) u
      (b :: bs ++ (cs ++ textOf vs)) d (by omega)
    have hupTo : upTo u (v :: vs) i = u ++ [v] := if_neg (by omega)
    have htake : (u ++ [v]).take (u.length + 1 - (d + 1)) = u.take (u.length - d) := by
      rw [show u.length + 1 - (d + 1) = u.length - d by omega,
        List.take_append_of_le_length (by omega)]
    rw [utf8HopBackOvershoot, hupTo, List.length_append, List.length_singleton, htake,
      textOf_append, hcons, ← hlength]
    constructor
    · rw [← Nat.add_assoc, hopBackLoop, if_pos ⟨by omega, by omega⟩, Nat.add_assoc, hprevious]
      simp only [bind, Except.bind]
      rw [show -((d + 1 : Nat) : Int) + 1 = -(d : Int) by omega, hloop]
      congr 2
      omega
    · intro hle
      rw [stepBack, hskip]
      simp only [bind, Except.bind]
      exact hstep (by omega)

/-- The positions and offsets from which the hop goes right. -/
def HopsWithin (r : List CodePoint) (i : Nat) (off : Int) : Prop :=
  off ≤ 0 ∨ (r ≠ [] ∧ (i = 0 ∨ 2 ≤ r.length))

theorem hopped_forward (u r : List CodePoint) (i : Nat) (hm : 0 < m) :
    hopped u r i m = ((textOf (u ++ r.take m)).length, (m : Int) - min m r.length) := by
  rw [hopped, if_neg (by omega), if_pos (by omega), Int.toNat_natCast]
  dsimp only
  rw [← List.take_eq_take_min]

theorem hopped_back (u r : List CodePoint) (i : Nat) {d : Nat} (hd : 0 < d) :
    hopped u r i (-(d : Int)) = ((textOf ((upTo u r i).take ((upTo u r i).length - d))).length,
      -(d : Int) + min d (upTo u r i).length) := by
  rw [hopped, if_neg (by omega), if_neg (by omega)]
  dsimp only
  rw [Int.neg_neg, Int.toNat_natCast, show (upTo u r i).length - min d (upTo u r i).length =
    (upTo u r i).length - d by omega]

theorem back_again (u r : List CodePoint) (m : Nat) :
    utf8HopOvershoot (textOf (u ++ r)) (textOf (u ++ r.take m)).length
      (-(min m r.length : Nat) : Int) true = .ok ((textOf u).length, 0) := by
  have htake : (r.take m).length = min m r.length := List.length_take
  rcases Nat.eq_zero_or_pos (min m r.length) with hzero | hpos
  · rw [hzero] at htake
    rw [hzero, List.length_eq_zero_iff.1 htake, List.append_nil]
    rfl
  · have hback := (hopBackLoop_spec (n := (textOf (u ++ r.take m)).length) (u ++ r.take m)
      (textOf (r.drop m)) (min m r.length) (length_textOf _)).1
    rw [← textOf_append, List.append_assoc, List.take_append_drop, List.length_append, htake,
      Nat.add_sub_cancel, List.take_left] at hback
    rw [utf8HopOvershoot, if_neg (by omega), utf8HopBackOvershoot, hback]
    congr 2
    omega

theorem hopsRight (u r : List CodePoint) (h : Inside r i) (hwithin : HopsWithin r i off) :
    HopsRight u r i off := by
  rcases Int.lt_trichotomy off 0 with hneg | rfl | hpos
  · obtain ⟨d, rfl⟩ : ∃ d : Nat, off = -(d : Int) := ⟨(-off).toNat, by omega⟩
    obtain ⟨hback, hstep⟩ := back_spec u r h (d := d) (by omega)
    have hhopped := hopped_back u r i (d := d) (by omega)
    refine ⟨?_, fun _ hle => by omega, fun hnone => ?_⟩
    · rw [hhopped, utf8HopOvershoot, if_neg (by omega), hback]
    · rw [hhopped] at hnone ⊢
      dsimp only at hnone
      rw [utf8Hop, if_neg (by omega), Int.neg_neg, Int.toNat_natCast]
      exact hstep (by omega)
  · exact ⟨rfl, fun hi _ => by subst hi; rfl, fun _ => rfl⟩
  · obtain ⟨m, rfl⟩ : ∃ m : Nat, off = m := ⟨off.toNat, by omega⟩
    have hr : r ≠ [] ∧ (i = 0 ∨ 2 ≤ r.length) := hwithin.resolve_left (by omega)
    have hhopped := hopped_forward u r i (m := m) (by omega)
    refine ⟨?_, fun _ _ => ?_, fun hnone => ?_⟩
    · rw [hhopped, utf8HopOvershoot, if_pos (by omega)]
      exact forward_spec u r h (by omega) hr
    · rw [hhopped]
      dsimp only
      rw [show -((m : Int) - (m - min m r.length)) = (-(min m r.length : Nat) : Int) by omega]
      exact back_again u r m
    · rw [hhopped] at hnone ⊢
      dsimp only at hnone
      exact plain_forward_spec u r h (by omega) hr (by omega)

/-- Hops are right except forward from the end, where a byte behind the string is read, and from
inside the last character, whose end is not counted as a step. -/
theorem hops_exact (vs : List CodePoint) (off : Int) {p : Nat} (hp : p ≤ (textOf vs).length) :
    ∃ u r i, vs = u ++ r ∧ Inside r i ∧ p = (textOf u).length + i ∧
      (HopsRight u r i off ↔ HopsWithin r i off) := by
  obtain ⟨u, r, i, hvs, hinside, hposition⟩ := exists_position vs hp
  refine ⟨u, r, i, hvs, hinside, hposition, fun h => ?_, hopsRight u r hinside⟩
  by_contra hout
  rw [HopsWithin, not_or, Int.not_le] at hout
  obtain ⟨hoff, hlast⟩ := hout
  have hhop := h.hop
  rw [utf8HopOvershoot, if_pos (by omega)] at hhop
  cases r with
  | nil =>
    obtain rfl : i = 0 := hinside.1 rfl
    rw [List.append_nil, Nat.add_zero, forward_end u hoff] at hhop
    cases hhop
  | cons v r =>
    have hi : 0 < i := by
      by_contra hzero
      exact hlast ⟨List.cons_ne_nil v r, .inl (by omega)⟩
    obtain rfl : r = [] := by
      by_contra hne
      have hlen := List.length_pos_iff.2 hne
      exact hlast ⟨List.cons_ne_nil v r, .inr (by rw [List.length_cons]; omega)⟩
    obtain ⟨m, rfl⟩ : ∃ m : Nat, off = m := ⟨off.toNat, by omega⟩
    rw [forward_last u hi (hinside.2 v [] rfl) hoff, hopped_forward u [v] i (by omega),
      Except.ok.injEq, Prod.mk.injEq] at hhop
    have hcount := hhop.2
    rw [List.length_singleton] at hcount
    omega

/-- Between the bytes of the second of three characters, three forward. -/
theorem hops_exact_three :
    ∃ u r i, [(0x61 : CodePoint), 0xE9, 0x20AC] = u ++ r ∧ Inside r i ∧
      2 = (textOf u).length + i ∧ (HopsRight u r i 3 ↔ HopsWithin r i 3) :=
  hops_exact [0x61, 0xE9, 0x20AC] 3 (by decide)

/-- From inside the last character one hop forward is not counted. -/
theorem hop_uncounted :
    ¬ ∀ (u r : List CodePoint) (i : Nat) (off : Int), Inside r i → HopsRight u r i off := by
  intro hall
  have hhop := (hall [] [0xE9] 1 1 ⟨nofun, fun v vs heq => by
    rw [← (List.cons.inj heq).1]
    decide⟩).hop
  revert hhop
  decide +kernel

end XPerl.Utf8
