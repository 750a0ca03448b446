import XPerl.Utf8.Streams

/-! UTF-16 of either byte order, and its conversions from and to UTF-8. -/

namespace XPerl.Utf8

open XPerl.Framework BitVec

variable {u v w i : Nat} {us : List Nat} {order : ByteOrder}

inductive Utf16Error where
  | byteLengthOdd
  | surrogatePairInvalid
  | encoder
deriving DecidableEq

def firstHighSurrogate : U32 := 0xD800

def lastHighSurrogate : U32 := 0xDBFF

def firstLowSurrogate : U32 := 0xDC00

def lastLowSurrogate : U32 := 0xDFFF

def firstInPlane1 : U32 := 0x10000

/-- `(p[high_byte] << 8) + p[low_byte]`, of the next two bytes. -/
def ByteOrder.getUnit : ByteOrder → U8 → U8 → U32
  | .big, a, b => (a.setWidth 32 <<< 8) + b.setWidth 32
  | .little, a, b => (b.setWidth 32 <<< 8) + a.setWidth 32

/-- What is written to `d[high_byte]` and `d[low_byte]`. -/
def ByteOrder.putUnit (order : ByteOrder) (uv : UV) : List U8 :=
  let high := (uv >>> 8).setWidth 8
  let low := (uv &&& 0xFF).setWidth 8
  match order with
  | .big => [high, low]
  | .little => [low, high]

def uvToUtf8 (uv : U32) : Except Utf16Error (List U8) :=
  match uvoffuniToUtf8FlagsMsgs (uv.setWidth 64) 0 with
  | .ok (some bytes) => .ok bytes
  | _ => .error .encoder

def utf16ToUtf8Loop (order : ByteOrder) : List U8 → Except Utf16Error (List U8)
  | a :: b :: p =>
    let uv := order.getUnit a b
    if firstHighSurrogate ≤ uv ∧ uv ≤ lastLowSurrogate then
      match p with
      | c :: d :: p =>
        if lastHighSurrogate < uv then .error .surrogatePairInvalid
        else
          let low := order.getUnit c d
          if ¬ (firstLowSurrogate ≤ low ∧ low ≤ lastLowSurrogate) then .error .surrogatePairInvalid
          else do
            let bytes ← uvToUtf8 (firstInPlane1 + (uv <<< 10) - (firstHighSurrogate <<< 10) + low -
              firstLowSurrogate)
            return bytes ++ (← utf16ToUtf8Loop order p)
      | _ => .error .surrogatePairInvalid
    else do
      let bytes ← uvToUtf8 uv
      return bytes ++ (← utf16ToUtf8Loop order p)
  | _ => .ok []

def utf16ToUtf8Base (order : ByteOrder) (p : List U8) : Except Utf16Error (List U8) :=
  if p.length % 2 = 1 then .error .byteLengthOdd else utf16ToUtf8Loop order p

def utf8ToUtf16Loop (order : ByteOrder) : Nat → List U8 → Except Croak (List U8)
  | 0, _ => .ok []
  | n + 1, s =>
    if s = [] then .ok []
    else do
      let r ← utf8ToUvMsgs s utf8DisallowIllegalC9Interchange
      let rest ← utf8ToUtf16Loop order n (s.drop r.advance)
      if 0x10000 ≤ r.cp then
        let highSurrogate : U32 := ((r.cp >>> 10) - ((0x10000 : UV) >>> 10) + 0xD800).setWidth 32
        return order.putUnit (highSurrogate.setWidth 64) ++
          order.putUnit ((r.cp &&& 0x3FF) + 0xDC00) ++ rest
      else return order.putUnit r.cp ++ rest

def utf8ToUtf16Base (order : ByteOrder) (s : List U8) : Except Croak (List U8) :=
  utf8ToUtf16Loop order s.length s

def IsHigh (u : Nat) : Prop := 0xD800 ≤ u ∧ u ≤ 0xDBFF

def IsLow (u : Nat) : Prop := 0xDC00 ≤ u ∧ u ≤ 0xDFFF

instance (u : Nat) : Decidable (IsHigh u) := inferInstanceAs (Decidable (_ ∧ _))

instance (u : Nat) : Decidable (IsLow u) := inferInstanceAs (Decidable (_ ∧ _))

/-- A surrogate that is no part of a pair in order. -/
def Lone (us : List Nat) (i : Nat) : Prop :=
  unicodeIsSurrogate (us.getD i 0) ∧
    ¬ (IsHigh (us.getD i 0) ∧ IsLow (us.getD (i + 1) 0)) ∧
    ¬ (0 < i ∧ IsHigh (us.getD (i - 1) 0) ∧ IsLow (us.getD i 0))

/-- The code points that are no surrogates. -/
structure Scalar where
  val : Nat
  le : val ≤ 0x10FFFF
  scalar : ¬ unicodeIsSurrogate val

@[ext]
theorem Scalar.ext {x y : Scalar} (h : x.val = y.val) : x = y := by
  cases x
  cases y
  cases h
  rfl

def units (v : Nat) : List Nat :=
  if v < 0x10000 then [v] else [0xD800 + (v - 0x10000) / 0x400, 0xDC00 + v % 0x400]

/-- UTF-16, whose words start with what is no low surrogate. -/
def utf16 : Coding Scalar Nat where
  encode x := units x.val
  start u := !decide (IsLow u)
  form x := by
    have hle := x.le
    have hscalar := x.scalar
    rw [unicodeIsSurrogate] at hscalar
    have hstart (u : Nat) : (!decide (IsLow u)) = true ↔ ¬ (0xDC00 ≤ u ∧ u ≤ 0xDFFF) := by
      rw [Bool.not_eq_true', decide_eq_false_iff_not, IsLow]
    rw [units]
    split_ifs with hlow
    · exact ⟨x.val, [], rfl, (hstart _).2 (by omega), by simp⟩
    · refine ⟨_, _, rfl, (hstart _).2 (by omega), fun y hy => ?_⟩
      have hsecond : IsLow (0xDC00 + x.val % 0x400) := ⟨by omega, by omega⟩
      rw [List.mem_singleton.1 hy]
      simp [hsecond]
  decides {x y r r'} h := by
    have hle := x.le
    have hle' := y.le
    have hscalar := x.scalar
    have hscalar' := y.scalar
    rw [unicodeIsSurrogate] at hscalar hscalar'
    apply Scalar.ext
    rw [units, units] at h
    split_ifs at h with hlow hlow' hlow' <;> simp at h <;> omega

def utf8 (vs : List Scalar) : List U8 := vs.flatMap fun x => encoding x.val

/-- The bytes of units. -/
def ByteOrder.bytes (order : ByteOrder) (us : List Nat) : List U8 :=
  us.flatMap fun u => order.putUnit (BitVec.ofNat 64 u)

/-- The units of bytes. -/
def ByteOrder.unitsOf (order : ByteOrder) : List U8 → List Nat
  | a :: b :: p => (order.getUnit a b).toNat :: order.unitsOf p
  | _ => []

theorem length_putUnit (order : ByteOrder) (uv : UV) : (order.putUnit uv).length = 2 := by
  cases order <;> rfl

@[simp] theorem bytes_nil (order : ByteOrder) : order.bytes [] = [] := rfl

theorem bytes_cons (order : ByteOrder) (u : Nat) (us : List Nat) :
    order.bytes (u :: us) = order.putUnit (BitVec.ofNat 64 u) ++ order.bytes us := List.flatMap_cons

theorem bytes_append (order : ByteOrder) (us vs : List Nat) :
    order.bytes (us ++ vs) = order.bytes us ++ order.bytes vs := List.flatMap_append

theorem length_bytes (order : ByteOrder) (us : List Nat) :
    (order.bytes us).length = 2 * us.length := by
  induction us with
  | nil => rfl
  | cons u us ih =>
    rw [bytes_cons, List.length_append, length_putUnit, ih, List.length_cons]
    omega

theorem toNat_getUnit (order : ByteOrder) (a b : U8) :
    (order.getUnit a b).toNat = match order with
      | .big => a.toNat * 256 + b.toNat
      | .little => b.toNat * 256 + a.toNat := by
  have hsum (a b : U8) :
      ((a.setWidth 32 <<< 8) + b.setWidth 32).toNat = a.toNat * 256 + b.toNat := by
    have ha := a.isLt
    have hb := b.isLt
    rw [toNat_add, toNat_shiftLeft, toNat_setWidth, toNat_setWidth,
      Nat.shiftLeft_eq]
    omega
  cases order
  · exact hsum b a
  · exact hsum a b

theorem putUnit_eq (order : ByteOrder) {uv : UV} (h : uv.toNat = u) (hu : u < 0x10000) :
    ∃ a b, order.putUnit uv = [a, b] ∧ (order.getUnit a b).toNat = u := by
  have hhigh : ((uv >>> 8).setWidth 8).toNat = u / 256 := by
    rw [toNat_setWidth, toNat_ushiftRight, h, Nat.shiftRight_eq_div_pow]
    omega
  have hlow : ((uv &&& 0xFF).setWidth 8).toNat = u % 256 := by
    have hmask : (0xFF : UV).toNat = 2 ^ 8 - 1 := rfl
    rw [toNat_setWidth, toNat_and, h, hmask, Nat.and_two_pow_sub_one_eq_mod]
    omega
  cases order with
  | little =>
    refine ⟨_, _, rfl, ?_⟩
    rw [toNat_getUnit]
    dsimp only
    rw [hhigh, hlow]
    omega
  | big =>
    refine ⟨_, _, rfl, ?_⟩
    rw [toNat_getUnit]
    dsimp only
    rw [hhigh, hlow]
    omega

theorem putUnit_getUnit (order : ByteOrder) (a b : U8) :
    order.putUnit (BitVec.ofNat 64 (order.getUnit a b).toNat) = [a, b] := by
  have ha := a.isLt
  have hb := b.isLt
  have hbytes (a b : U8) : ((BitVec.ofNat 64 (a.toNat * 256 + b.toNat)) >>> 8).setWidth 8 = a ∧
      ((BitVec.ofNat 64 (a.toNat * 256 + b.toNat)) &&& 0xFF).setWidth 8 = b := by
    have ha := a.isLt
    have hb := b.isLt
    have hmask : (0xFF : UV).toNat = 2 ^ 8 - 1 := rfl
    constructor
    · apply eq_of_toNat_eq
      rw [toNat_setWidth, toNat_ushiftRight, toNat_ofNat,
        Nat.shiftRight_eq_div_pow]
      omega
    · apply eq_of_toNat_eq
      rw [toNat_setWidth, toNat_and, toNat_ofNat, hmask,
        Nat.and_two_pow_sub_one_eq_mod]
      omega
  rw [toNat_getUnit]
  cases order with
  | little =>
    obtain ⟨hhigh, hlow⟩ := hbytes b a
    rw [ByteOrder.putUnit]
    dsimp only
    rw [hhigh, hlow]
  | big =>
    obtain ⟨hhigh, hlow⟩ := hbytes a b
    rw [ByteOrder.putUnit]
    dsimp only
    rw [hhigh, hlow]

theorem bytes_unitsOf (order : ByteOrder) : ∀ p : List U8, p.length % 2 = 0 →
    order.bytes (order.unitsOf p) = p
  | [], _ => rfl
  | [_], h => by simp at h
  | a :: b :: p, h => by
    rw [ByteOrder.unitsOf, bytes_cons, putUnit_getUnit, bytes_unitsOf order p (by
      rw [List.length_cons, List.length_cons] at h
      omega)]
    rfl

theorem unitsOf_lt (order : ByteOrder) : ∀ p : List U8, ∀ u ∈ order.unitsOf p, u < 0x10000
  | [] => by simp [ByteOrder.unitsOf]
  | [_] => by simp [ByteOrder.unitsOf]
  | a :: b :: p => by
    intro u hu
    rcases List.mem_cons.1 hu with rfl | hu
    · have ha := a.isLt
      have hb := b.isLt
      rw [toNat_getUnit]
      cases order <;> dsimp only <;> omega
    · exact unitsOf_lt order p u hu

section Loops

def paired (u w : Nat) : Nat := 0x10000 + (u - 0xD800) * 0x400 + (w - 0xDC00)

theorem units_paired (hu : IsHigh u) (hw : IsLow w) : units (paired u w) = [u, w] := by
  rw [IsHigh] at hu
  rw [IsLow] at hw
  have hplane : ¬ paired u w < 0x10000 := by
    unfold paired
    omega
  have hfirst : 0xD800 + (paired u w - 0x10000) / 0x400 = u := by
    unfold paired
    omega
  have hsecond : 0xDC00 + paired u w % 0x400 = w := by
    unfold paired
    omega
  rw [units, if_neg hplane, hfirst, hsecond]

theorem uvToUtf8_eq {uv : U32} (h : uv.toNat = u) (hu : u ≤ 0x10FFFF) :
    uvToUtf8 uv = .ok (encoding u) := by
  have hwide : (uv.setWidth 64).toNat = u := by
    rw [toNat_setWidth, h]
    omega
  have hlegal : (uv.setWidth 64).toNat ≤ maxLegalCP := by
    rw [hwide, maxLegalCP]
    omega
  rw [uvToUtf8, encoder_eq hlegal, hwide]

theorem toNat_pair {uv low : U32} (hu : uv.toNat = u) (hw : low.toNat = w) (hhigh : IsHigh u)
    (hlow : IsLow w) :
    (firstInPlane1 + (uv <<< 10) - (firstHighSurrogate <<< 10) + low - firstLowSurrogate).toNat =
      paired u w := by
  rw [IsHigh] at hhigh
  rw [IsLow] at hlow
  have hshift : (uv <<< 10).toNat = u * 1024 := by
    rw [toNat_shiftLeft, hu, Nat.shiftLeft_eq]
    omega
  have hfirst : (firstHighSurrogate <<< 10).toNat = 0xD800 * 1024 := rfl
  have hplane : firstInPlane1.toNat = 0x10000 := rfl
  have hsecond : firstLowSurrogate.toNat = 0xDC00 := rfl
  rw [toNat_sub, toNat_add, toNat_sub, toNat_add, hshift, hfirst, hw,
    hplane, hsecond]
  unfold paired
  omega

section Units

variable (order)

theorem bytes_cons_eq (hu : u < 0x10000) (us : List Nat) :
    ∃ a b, order.bytes (u :: us) = a :: b :: order.bytes us ∧ (order.getUnit a b).toNat = u := by
  obtain ⟨a, b, hput, hget⟩ := putUnit_eq order (show (BitVec.ofNat 64 u).toNat = u by
    rw [toNat_ofNat]
    omega) hu
  exact ⟨a, b, by rw [bytes_cons, hput]; rfl, hget⟩

theorem isSurrogate_iff {uv : U32} (h : uv.toNat = u) :
    firstHighSurrogate ≤ uv ∧ uv ≤ lastLowSurrogate ↔ unicodeIsSurrogate u := by
  rw [BitVec.le_def, BitVec.le_def, h, unicodeIsSurrogate]
  rfl

theorem isLow_iff {uv : U32} (h : uv.toNat = u) :
    firstLowSurrogate ≤ uv ∧ uv ≤ lastLowSurrogate ↔ IsLow u := by
  rw [BitVec.le_def, BitVec.le_def, h, IsLow]
  rfl

theorem isHigh_iff {uv : U32} (h : uv.toNat = u) (hsurrogate : unicodeIsSurrogate u) :
    ¬ lastHighSurrogate < uv ↔ IsHigh u := by
  rw [BitVec.lt_def, h, Nat.not_lt, IsHigh, and_iff_right hsurrogate.1]
  rfl

theorem loop_plain (hu : u < 0x10000) (hno : ¬ unicodeIsSurrogate u) (us : List Nat) :
    utf16ToUtf8Loop order (order.bytes (u :: us)) =
      (utf16ToUtf8Loop order (order.bytes us)).map (encoding u ++ ·) := by
  obtain ⟨a, b, hbytes, hget⟩ := bytes_cons_eq order hu us
  have hplain : ¬ (firstHighSurrogate ≤ order.getUnit a b ∧
      order.getUnit a b ≤ lastLowSurrogate) := mt (isSurrogate_iff hget).1 hno
  rw [hbytes]
  generalize order.bytes us = p
  have hstep : utf16ToUtf8Loop order (a :: b :: p) =
      (uvToUtf8 (order.getUnit a b)).bind fun bytes =>
        (utf16ToUtf8Loop order p).map (bytes ++ ·) := by
    rcases p with _ | ⟨c, _ | ⟨d, p⟩⟩ <;> rw [utf16ToUtf8Loop] <;> first
      | exact if_neg hplain
      | simp
  rw [hstep, uvToUtf8_eq hget (by omega)]
  rfl

theorem loop_pair (hu : IsHigh u) (hw : IsLow w) (us : List Nat) :
    utf16ToUtf8Loop order (order.bytes (u :: w :: us)) =
      (utf16ToUtf8Loop order (order.bytes us)).map (encoding (paired u w) ++ ·) := by
  have hrange : 0xD800 ≤ u ∧ u ≤ 0xDBFF := hu
  have hrange' : 0xDC00 ≤ w ∧ w ≤ 0xDFFF := hw
  obtain ⟨a, b, hbytes, hget⟩ := bytes_cons_eq order (show u < 0x10000 by omega) (w :: us)
  obtain ⟨c, d, hbytes', hget'⟩ := bytes_cons_eq order (show w < 0x10000 by omega) us
  have hsurrogate : unicodeIsSurrogate u := ⟨hrange.1, by omega⟩
  have hvalue : paired u w ≤ 0x10FFFF := by
    unfold paired
    omega
  rw [hbytes, hbytes', utf16ToUtf8Loop, if_pos ((isSurrogate_iff hget).2 hsurrogate)]
  dsimp only
  rw [if_neg ((isHigh_iff hget hsurrogate).2 hu), if_neg (not_not_intro ((isLow_iff hget').2 hw)),
    uvToUtf8_eq (toNat_pair hget hget' hu hw) hvalue]
  rfl

theorem loop_refuses (hu : u < 0x10000) (hsurrogate : unicodeIsSurrogate u) {us : List Nat}
    (hus : ∀ w ∈ us, w < 0x10000) (hno : ∀ w vs, us = w :: vs → ¬ (IsHigh u ∧ IsLow w)) :
    utf16ToUtf8Loop order (order.bytes (u :: us)) = .error .surrogatePairInvalid := by
  obtain ⟨a, b, hbytes, hget⟩ := bytes_cons_eq order hu us
  cases us with
  | nil =>
    rw [hbytes, bytes_nil, utf16ToUtf8Loop, if_pos ((isSurrogate_iff hget).2 hsurrogate)]
    simp
  | cons w us =>
    obtain ⟨c, d, hbytes', hget'⟩ := bytes_cons_eq order (hus w List.mem_cons_self) us
    rw [hbytes, hbytes', utf16ToUtf8Loop, if_pos ((isSurrogate_iff hget).2 hsurrogate)]
    dsimp only
    by_cases hhigh : lastHighSurrogate < order.getUnit a b
    · rw [if_pos hhigh]
    · have hlow : ¬ IsLow w := fun hlow =>
        hno w us rfl ⟨(isHigh_iff hget hsurrogate).1 hhigh, hlow⟩
      rw [if_neg hhigh, if_pos (mt (isLow_iff hget').1 hlow)]

end Units

theorem not_lone_nil (i : Nat) : ¬ Lone [] i := by
  simp [Lone, unicodeIsSurrogate]

theorem lone_cons_iff (hu : ¬ IsHigh u) (us : List Nat) (i : Nat) :
    Lone (u :: us) (i + 1) ↔ Lone us i := by
  cases i with
  | zero => simp [Lone, hu]
  | succ i => simp [Lone]

theorem lone_pair_iff (hu : IsHigh u) (hw : IsLow w) (us : List Nat) :
    (∃ i, Lone (u :: w :: us) i) ↔ ∃ i, Lone us i := by
  have hw' : ¬ IsHigh w := by
    rw [IsLow] at hw
    rw [IsHigh]
    omega
  constructor
  · rintro ⟨i, hi⟩
    match i, hi with
    | 0, hi => exact absurd ⟨hu, hw⟩ hi.2.1
    | 1, hi => exact absurd ⟨Nat.one_pos, hu, hw⟩ hi.2.2
    | i + 2, hi =>
      refine ⟨i, (lone_cons_iff hw' us i).1 ?_⟩
      rw [Lone] at hi ⊢
      simpa using hi
  · rintro ⟨i, hi⟩
    refine ⟨i + 2, ?_⟩
    have hcons := (lone_cons_iff hw' us i).2 hi
    rw [Lone] at hcons ⊢
    simpa using hcons

theorem encodeAll_cons (x : Scalar) (vs : List Scalar) :
    utf16.encodeAll (x :: vs) = units x.val ++ utf16.encodeAll vs := utf16.encodeAll_cons x vs

@[simp] theorem utf8_cons (x : Scalar) (vs : List Scalar) :
    utf8 (x :: vs) = encoding x.val ++ utf8 vs := List.flatMap_cons

theorem loop_spec (order : ByteOrder) {us : List Nat} (hus : ∀ u ∈ us, u < 0x10000) :
    ((∃ i, Lone us i) ∧
        utf16ToUtf8Loop order (order.bytes us) = .error .surrogatePairInvalid) ∨
      ((¬ ∃ i, Lone us i) ∧ ∃ vs, us = utf16.encodeAll vs ∧
        utf16ToUtf8Loop order (order.bytes us) = .ok (utf8 vs)) := by
  induction hn : us.length using Nat.strong_induction_on generalizing us with
  | _ n ih =>
  subst hn
  cases us with
  | nil => exact .inr ⟨fun ⟨i, hi⟩ => not_lone_nil i hi, [], rfl, rfl⟩
  | cons u us =>
    have hu := hus u List.mem_cons_self
    have hrest : ∀ w ∈ us, w < 0x10000 := fun w hw => hus w (List.mem_cons_of_mem u hw)
    by_cases hsurrogate : unicodeIsSurrogate u
    · by_cases hpair : ∃ w vs, us = w :: vs ∧ IsHigh u ∧ IsLow w
      · obtain ⟨w, vs, rfl, hhigh, hlow⟩ := hpair
        have hscalar : ¬ unicodeIsSurrogate (paired u w) := by
          unfold paired unicodeIsSurrogate
          omega
        have hle : paired u w ≤ 0x10FFFF := by
          have hrange : 0xD800 ≤ u ∧ u ≤ 0xDBFF := hhigh
          have hrange' : 0xDC00 ≤ w ∧ w ≤ 0xDFFF := hlow
          unfold paired
          omega
        rw [lone_pair_iff hhigh hlow, loop_pair order hhigh hlow]
        rcases ih vs.length (by simp only [List.length_cons]; omega)
          (fun x hx => hrest x (List.mem_cons_of_mem w hx)) rfl with h | h
        · exact .inl ⟨h.1, by rw [h.2]; rfl⟩
        · obtain ⟨hno, xs, rfl, hloop⟩ := h
          obtain ⟨x, hx⟩ : ∃ x : Scalar, x.val = paired u w := ⟨⟨_, hle, hscalar⟩, rfl⟩
          refine .inr ⟨hno, x :: xs, ?_, ?_⟩
          · rw [encodeAll_cons, hx, units_paired hhigh hlow]
            rfl
          · rw [hloop, utf8_cons, hx]
            rfl
      · refine .inl ⟨⟨0, hsurrogate, ?_, ?_⟩, ?_⟩
        · cases us with
          | nil => simp [IsLow]
          | cons w vs => exact fun h => hpair ⟨w, vs, rfl, h⟩
        · exact fun h => absurd h.1 (Nat.lt_irrefl 0)
        · exact loop_refuses order hu hsurrogate hrest fun w vs heq h => hpair ⟨w, vs, heq, h⟩
    · have hhigh : ¬ IsHigh u := by
        rw [unicodeIsSurrogate] at hsurrogate
        rw [IsHigh]
        omega
      have hlone : (∃ i, Lone (u :: us) i) ↔ ∃ i, Lone us i := by
        constructor
        · rintro ⟨i, hi⟩
          cases i with
          | zero => exact absurd hi.1 hsurrogate
          | succ i => exact ⟨i, (lone_cons_iff hhigh us i).1 hi⟩
        · rintro ⟨i, hi⟩
          exact ⟨i + 1, (lone_cons_iff hhigh us i).2 hi⟩
      rw [hlone, loop_plain order hu hsurrogate]
      rcases ih us.length (Nat.lt_succ_self _) hrest rfl with h | h
      · exact .inl ⟨h.1, by rw [h.2]; rfl⟩
      · obtain ⟨hno, xs, rfl, hloop⟩ := h
        obtain ⟨x, hx⟩ : ∃ x : Scalar, x.val = u := ⟨⟨u, by omega, hsurrogate⟩, rfl⟩
        refine .inr ⟨hno, x :: xs, ?_, ?_⟩
        · rw [encodeAll_cons, hx, units, if_pos hu]
          rfl
        · rw [hloop, utf8_cons, hx]
          rfl

end Loops

section Conversions

variable {vs : List Scalar}

theorem lengths_le (order : ByteOrder) (vs : List Scalar) :
    (utf8 vs).length ≤ 2 * (order.bytes (utf16.encodeAll vs)).length ∧
      (order.bytes (utf16.encodeAll vs)).length ≤ 2 * (utf8 vs).length := by
  induction vs with
  | nil => exact ⟨Nat.le_refl _, Nat.le_refl _⟩
  | cons x vs ih =>
    have hle := x.le
    have hwidth : width x.val ≤ 4 * (units x.val).length ∧
        (units x.val).length ≤ width x.val := by
      rw [units, width]
      split_ifs <;> simp only [List.length_cons, List.length_nil] <;> omega
    rw [encodeAll_cons, bytes_append, utf8_cons, List.length_append, List.length_append,
      length_encoding, length_bytes]
    omega

theorem units_cases (x : Scalar) :
    (units x.val = [x.val] ∧ x.val < 0x10000) ∨
      ∃ u w, units x.val = [u, w] ∧ IsHigh u ∧ IsLow w ∧ paired u w = x.val ∧ 0x10000 ≤ x.val := by
  have hle := x.le
  rw [units]
  split_ifs with hlow
  · exact .inl ⟨rfl, hlow⟩
  · refine .inr ⟨_, _, rfl, ⟨by omega, by omega⟩, ⟨by omega, by omega⟩, ?_, by omega⟩
    unfold paired
    omega

theorem utf16ToUtf8Loop_encodeAll (order : ByteOrder) (vs : List Scalar) :
    utf16ToUtf8Loop order (order.bytes (utf16.encodeAll vs)) = .ok (utf8 vs) := by
  induction vs with
  | nil => rfl
  | cons x vs ih =>
    rw [encodeAll_cons, utf8_cons]
    rcases units_cases x with ⟨hunits, hlow⟩ | ⟨u, w, hunits, hu, hw, hpaired, -⟩
    · rw [hunits, List.singleton_append, loop_plain order hlow x.scalar, ih]
      rfl
    · rw [hunits, List.cons_append, List.singleton_append, loop_pair order hu hw, ih, hpaired]
      rfl

theorem not_utf8Disallowed (x : Scalar) :
    ¬ utf8Disallowed utf8DisallowIllegalC9Interchange x.val := by
  have hle := x.le
  rintro (h | h | h | h)
  · exact x.scalar h.2
  · exact absurd h.1 (by decide)
  · exact absurd h.2 (Nat.not_lt.2 hle)
  · exact absurd h.2 (Nat.not_lt.2 (hle.trans (by decide)))

theorem toNat_halves {cp : UV} (h : cp.toNat = v) (hlow : 0x10000 ≤ v) (hhigh : v ≤ 0x10FFFF) :
    ((((cp >>> 10) - ((0x10000 : UV) >>> 10) + 0xD800).setWidth 32 : U32).setWidth 64 : UV) =
        BitVec.ofNat 64 (0xD800 + (v - 0x10000) / 0x400) ∧
      (cp &&& 0x3FF) + 0xDC00 = BitVec.ofNat 64 (0xDC00 + v % 0x400) := by
  have hmask : (0x3FF : UV).toNat = 2 ^ 10 - 1 := rfl
  have hplane : ((0x10000 : UV) >>> 10).toNat = 64 := rfl
  have hfirst : (0xD800 : UV).toNat = 0xD800 := rfl
  have hsecond : (0xDC00 : UV).toNat = 0xDC00 := rfl
  constructor
  · apply eq_of_toNat_eq
    rw [toNat_setWidth, toNat_setWidth, toNat_add, toNat_sub,
      hplane, hfirst, toNat_ushiftRight, h, toNat_ofNat, Nat.shiftRight_eq_div_pow]
    omega
  · apply eq_of_toNat_eq
    rw [toNat_add, toNat_and, h, hmask, hsecond, toNat_ofNat,
      Nat.and_two_pow_sub_one_eq_mod]
    omega

theorem utf8ToUtf16Loop_utf8 (order : ByteOrder) (vs : List Scalar) {n : Nat}
    (hn : (utf8 vs).length ≤ n) :
    utf8ToUtf16Loop order n (utf8 vs) = .ok (order.bytes (utf16.encodeAll vs)) := by
  induction vs generalizing n with
  | nil => cases n <;> rfl
  | cons x vs ih =>
    have hle := x.le
    have hlegal : x.val ≤ maxLegalCP := hle.trans (by decide)
    have hne := encoding_ne_nil x.val
    rw [utf8_cons, List.length_append] at hn
    have hpos : 0 < (encoding x.val).length := List.length_pos_iff.2 hne
    obtain ⟨n, rfl⟩ : ∃ m, n = m + 1 := ⟨n - 1, by omega⟩
    obtain ⟨cp, errors, hcp, hdecode⟩ : ∃ cp errors, cp.toNat = x.val ∧
        utf8ToUvMsgs (encoding x.val ++ utf8 vs) utf8DisallowIllegalC9Interchange =
          .ok ⟨true, cp, (encoding x.val).length, errors⟩ := by
      rcases decoder_encoding utf8DisallowIllegalC9Interchange hlegal
        (List.prefix_append (encoding x.val) (utf8 vs)) with h | h | h
      · exact h.2
      · exact absurd h.1 (not_utf8Disallowed x)
      · exact absurd h.1 (not_utf8Disallowed x)
    rw [utf8_cons, utf8ToUtf16Loop, if_neg (by simp [hne]), hdecode, encodeAll_cons, bytes_append]
    simp only [bind, Except.bind, pure, Except.pure]
    rw [List.drop_left, ih (by omega)]
    dsimp only
    have hplane : 0x10000 ≤ cp ↔ 0x10000 ≤ x.val := by
      rw [BitVec.le_def, hcp]
      rfl
    by_cases hpair : 0x10000 ≤ x.val
    · obtain ⟨hfirst, hsecond⟩ := toNat_halves hcp hpair hle
      rw [if_pos (hplane.2 hpair), hfirst, hsecond, units, if_neg (Nat.not_lt.2 hpair),
        bytes_cons, bytes_cons, bytes_nil, List.append_nil]
    · have hcp' : cp = BitVec.ofNat 64 x.val := by
        rw [← hcp, BitVec.ofNat_toNat, BitVec.setWidth_eq]
      rw [if_neg (mt hplane.1 hpair), units, if_pos (Nat.not_le.1 hpair), bytes_cons, bytes_nil,
        List.append_nil, hcp']

theorem utf16ToUtf8Base_eq (order : ByteOrder) {p : List U8} (h : p.length % 2 = 0) :
    utf16ToUtf8Base order p = utf16ToUtf8Loop order p := by
  rw [utf16ToUtf8Base, if_neg (by omega)]

/-- From UTF-16 to UTF-8 what has a lone surrogate is refused; anything else goes over and comes
back, and so does all UTF-8 of scalar values. -/
theorem utf16_utf8_inverse (order : ByteOrder) :
    (∀ p : List U8, p.length % 2 = 0 →
      ((∃ i, Lone (order.unitsOf p) i) ↔
        utf16ToUtf8Base order p = .error .surrogatePairInvalid) ∧
      ((¬ ∃ i, Lone (order.unitsOf p) i) → ∃ vs, order.unitsOf p = utf16.encodeAll vs ∧
        utf16ToUtf8Base order p = .ok (utf8 vs) ∧ (utf8 vs).length ≤ 2 * p.length ∧
        utf8ToUtf16Base order (utf8 vs) = .ok p)) ∧
    ∀ vs : List Scalar, ∃ p, utf8ToUtf16Base order (utf8 vs) = .ok p ∧
      p.length ≤ 2 * (utf8 vs).length ∧ order.bytes (utf16.encodeAll vs) = p ∧
      (¬ ∃ i, Lone (utf16.encodeAll vs) i) ∧ utf16ToUtf8Base order p = .ok (utf8 vs) := by
  constructor
  · intro p hp
    have hbytes := bytes_unitsOf order p hp
    rw [utf16ToUtf8Base_eq order hp]
    rcases loop_spec order (unitsOf_lt order p) with ⟨hlone, hloop⟩ | ⟨hno, vs, hvs, hloop⟩
    · rw [hbytes] at hloop
      exact ⟨iff_of_true hlone hloop, fun hno => absurd hlone hno⟩
    · rw [hbytes] at hloop
      refine ⟨iff_of_false hno (by rw [hloop]; nofun), fun _ => ⟨vs, hvs, hloop, ?_, ?_⟩⟩
      · rw [← hbytes, hvs]
        exact (lengths_le order vs).1
      · rw [← hbytes, hvs]
        exact utf8ToUtf16Loop_utf8 order vs (Nat.le_refl _)
  · intro vs
    have hlength := length_bytes order (utf16.encodeAll vs)
    refine ⟨_, utf8ToUtf16Loop_utf8 order vs (Nat.le_refl _), (lengths_le order vs).2, rfl, ?_, ?_⟩
    · have hlt : ∀ u ∈ utf16.encodeAll vs, u < 0x10000 := by
        intro u hu
        obtain ⟨x, -, hx⟩ := List.mem_flatMap.1 hu
        have hle := x.le
        change u ∈ units x.val at hx
        rw [units] at hx
        split_ifs at hx <;> simp at hx <;> omega
      rcases loop_spec order hlt with ⟨-, hloop⟩ | ⟨hno, -⟩
      · rw [utf16ToUtf8Loop_encodeAll] at hloop
        cases hloop
      · exact hno
    · rw [utf16ToUtf8Base_eq order (by omega), utf16ToUtf8Loop_encodeAll]

example : utf16ToUtf8Base .big [0xD8, 0x3D, 0xDE, 0x00] = .ok [0xF0, 0x9F, 0x98, 0x80] := by
  decide +kernel

end Conversions

end XPerl.Utf8
