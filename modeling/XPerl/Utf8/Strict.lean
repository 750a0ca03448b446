import XPerl.Utf8.Malformed

/-! The fast path of the decoder: what its table accepts is never problematic. -/

namespace XPerl.Utf8

open XPerl.Framework.PlaceValue

variable {c x : U8} {us rest : List U8} {flags : U32} {uv : UV} {j k l n p read v : Nat}

def strictAfter (k x : Nat) : Nat :=
  if x < 0x80 ∨ 0xBF < x then 1
  else match k with
    | 1 => 0
    | 2 => strictNode 1
    | 3 => if x < 0xA0 then 1 else strictNode 1
    | 4 => if x = 0xB7 then strictNode 8 else if x = 0xBF then strictNode 9 else strictNode 1
    | 5 => if x < 0x90 then 1 else if x % 16 = 15 then strictNode 10 else strictNode 2
    | 6 => if x % 16 = 15 then strictNode 10 else strictNode 2
    | 7 => if 0x8F < x then 1 else if x = 0x8F then strictNode 10 else strictNode 2
    | 8 => if 0x90 ≤ x ∧ x ≤ 0xAF then 1 else 0
    | 9 => if 0xBE ≤ x then 1 else 0
    | 10 => if x = 0xBF then strictNode 11 else strictNode 1
    | _ => if 0xBE ≤ x then 1 else 0

theorem strict_next (hk : 1 ≤ k) (hk' : k ≤ 11) (x : U8) :
    dfaNext strictUtf8DfaTab (strictNode k) x = strictAfter k x.toNat := by
  have hall : ∀ k < 12, 1 ≤ k → ∀ x : U8,
      dfaNext strictUtf8DfaTab (strictNode k) x = strictAfter k x.toNat := by decide +kernel
  exact hall k (by omega) hk x

def Fine (v : Nat) : Prop := ¬ unicodeIsSurrogate v ∧ ¬ unicodeIsSuper v ∧ ¬ unicodeIsNonchar v

theorem fine_iff (v : Nat) :
    Fine v ↔ (v < 0xD800 ∨ 0xDFFF < v) ∧ v ≤ 0x10FFFF ∧ (v < 0xFDD0 ∨ 0xFDEF < v) ∧
      v % 65536 < 65534 := by
  rw [Fine, unicodeIsNonchar, noncharGivenNotSuper_iff, unicodeIsSurrogate, unicodeIsSuper]
  omega

/-- What is known at a node of the least value of the length, the value so far and the bytes still
to come. -/
inductive Pending : Nat → Nat → Nat → Nat → Prop
  | one {l p : Nat} : l ≤ p * 64 → p < 0x360 ∨ 0x380 ≤ p → p ≠ 0x3F7 → p % 1024 ≠ 1023 →
      p < 0x4400 → Pending 1 l p 1
  | two {l p : Nat} : l ≤ p * 4096 → p ≠ 0xD → p ≠ 0xF → p % 16 ≠ 15 → p < 0x110 → Pending 2 l p 2
  | e0 : Pending 3 0x800 0 2
  | ef : Pending 4 0x800 0xF 2
  | f0 : Pending 5 0x10000 0 3
  | f1 {p : Nat} : 1 ≤ p → p ≤ 3 → Pending 6 0x10000 p 3
  | f4 : Pending 7 0x10000 4 3
  | efb7 : Pending 8 0x800 0x3F7 1
  | efbf : Pending 9 0x800 0x3FF 1
  | plane {p : Nat} : p % 16 = 15 → 0x10 ≤ p → p < 0x110 → Pending 10 0x10000 p 2
  | planeEnd {p : Nat} : p % 1024 = 1023 → 0x400 ≤ p → p < 0x4400 → Pending 11 0x10000 p 1

theorem Pending.range (h : Pending k l p j) : 1 ≤ k ∧ k ≤ 11 ∧ 1 ≤ j ∧ j ≤ 3 ∧ p < 0x4400 := by
  cases h <;> omega

/-- What a byte makes of a node: it ends a fine code point, leads to another node, or is
rejected. -/
def Stepped (l p j d after : Nat) : Prop :=
  (after = 0 ∧ j = 1 ∧ Fine (p * 64 + d) ∧ l ≤ p * 64 + d) ∨
    (∃ k', after = strictNode k' ∧ 1 < j ∧ Pending k' l (p * 64 + d) (j - 1)) ∨ after = 1

theorem Pending.stepped {b d : Nat} (h : Pending k l p j) (hb : b = 0x80 + d) (hd : d < 64) :
    Stepped l p j d (strictAfter k b) := by
  have hno : ¬ (b < 0x80 ∨ 0xBF < b) := by omega
  cases h with
  | one hl hs hn hm hp => exact .inl ⟨if_neg hno, rfl, (fine_iff _).2 (by omega), by omega⟩
  | two hl hs hn hm hp =>
    exact .inr (.inl ⟨1, if_neg hno, by decide, .one (by omega) (by omega) (by omega) (by omega)
      (by omega)⟩)
  | e0 =>
    have hafter : strictAfter 3 b = if b < 0xA0 then 1 else strictNode 1 := if_neg hno
    rw [hafter]
    split_ifs
    · exact .inr (.inr rfl)
    · exact .inr (.inl ⟨1, rfl, by decide, .one (by omega) (by omega) (by omega) (by omega)
        (by omega)⟩)
  | ef =>
    have hafter : strictAfter 4 b = if b = 0xB7 then strictNode 8
        else if b = 0xBF then strictNode 9 else strictNode 1 := if_neg hno
    rw [hafter]
    split_ifs with h₁ h₂
    · have hd : d = 0x37 := by omega
      subst hd
      exact .inr (.inl ⟨8, rfl, by decide, .efb7⟩)
    · have hd : d = 0x3F := by omega
      subst hd
      exact .inr (.inl ⟨9, rfl, by decide, .efbf⟩)
    · exact .inr (.inl ⟨1, rfl, by decide, .one (by omega) (by omega) (by omega) (by omega)
        (by omega)⟩)
  | f0 =>
    have hafter : strictAfter 5 b = if b < 0x90 then 1
        else if b % 16 = 15 then strictNode 10 else strictNode 2 := if_neg hno
    rw [hafter]
    split_ifs
    · exact .inr (.inr rfl)
    · exact .inr (.inl ⟨10, rfl, by decide, .plane (by omega) (by omega) (by omega)⟩)
    · exact .inr (.inl ⟨2, rfl, by decide, .two (by omega) (by omega) (by omega) (by omega)
        (by omega)⟩)
  | f1 hlo hhi =>
    have hafter : strictAfter 6 b = if b % 16 = 15 then strictNode 10 else strictNode 2 :=
      if_neg hno
    rw [hafter]
    split_ifs
    · exact .inr (.inl ⟨10, rfl, by decide, .plane (by omega) (by omega) (by omega)⟩)
    · exact .inr (.inl ⟨2, rfl, by decide, .two (by omega) (by omega) (by omega) (by omega)
        (by omega)⟩)
  | f4 =>
    have hafter : strictAfter 7 b = if 0x8F < b then 1
        else if b = 0x8F then strictNode 10 else strictNode 2 := if_neg hno
    rw [hafter]
    split_ifs
    · exact .inr (.inr rfl)
    · exact .inr (.inl ⟨10, rfl, by decide, .plane (by omega) (by omega) (by omega)⟩)
    · exact .inr (.inl ⟨2, rfl, by decide, .two (by omega) (by omega) (by omega) (by omega)
        (by omega)⟩)
  | efb7 =>
    have hafter : strictAfter 8 b = if 0x90 ≤ b ∧ b ≤ 0xAF then 1 else 0 := if_neg hno
    rw [hafter]
    split_ifs
    · exact .inr (.inr rfl)
    · exact .inl ⟨rfl, rfl, (fine_iff _).2 (by omega), by omega⟩
  | efbf =>
    have hafter : strictAfter 9 b = if 0xBE ≤ b then 1 else 0 := if_neg hno
    rw [hafter]
    split_ifs
    · exact .inr (.inr rfl)
    · exact .inl ⟨rfl, rfl, (fine_iff _).2 (by omega), by omega⟩
  | plane hm hlo hhi =>
    have hafter : strictAfter 10 b = if b = 0xBF then strictNode 11 else strictNode 1 := if_neg hno
    rw [hafter]
    split_ifs
    · exact .inr (.inl ⟨11, rfl, by decide, .planeEnd (by omega) (by omega) (by omega)⟩)
    · exact .inr (.inl ⟨1, rfl, by decide, .one (by omega) (by omega) (by omega) (by omega)
        (by omega)⟩)
  | planeEnd hm hlo hhi =>
    have hafter : strictAfter 11 b = if 0xBE ≤ b then 1 else 0 := if_neg hno
    rw [hafter]
    split_ifs
    · exact .inr (.inr rfl)
    · exact .inl ⟨rfl, rfl, (fine_iff _).2 (by omega), by omega⟩

theorem Pending.step (h : Pending k l p j) (x : U8) :
    (isContinuation x = true ∧ Stepped l p j (sixBits x) (strictAfter k x.toNat)) ∨
      strictAfter k x.toNat = 1 := by
  by_cases hrange : x.toNat < 0x80 ∨ 0xBF < x.toNat
  · exact .inr (if_pos hrange)
  rw [not_or, Nat.not_lt, Nat.not_lt] at hrange
  have hcont : isContinuation x = true := (isContinuation_iff x).2 hrange
  exact .inl ⟨hcont, h.stepped (toNat_of_continuation hcont) (sixBits_lt x)⟩

def strictState (c : U8) : Nat :=
  strictUtf8DfaTab.getD (256 + strictUtf8DfaTab.getD c.toNat 0) 0

theorem strict_first (h : 0x80 ≤ c.toNat) (hstate : strictState c ≠ 1) :
    0xC0 ≤ c.toNat ∧
      (∃ k, strictState c = strictNode k ∧
        Pending k (least (utf8Skip c)) (lead c) (utf8Skip c - 1)) ∧
      ((0xFF : U8) >>> strictUtf8DfaTab.getD c.toNat 0 &&& c).toNat = lead c := by
  have hall : ∀ c : U8, 0x80 ≤ c.toNat → strictState c ≠ 1 → 0xC0 ≤ c.toNat ∧
      ((strictState c = strictNode 1 ∧ utf8Skip c = 2 ∧ 2 ≤ lead c ∧ lead c < 32) ∨
        (strictState c = strictNode 2 ∧ utf8Skip c = 3 ∧ 1 ≤ lead c ∧ lead c < 15 ∧ lead c ≠ 13) ∨
        (strictState c = strictNode 3 ∧ utf8Skip c = 3 ∧ lead c = 0) ∨
        (strictState c = strictNode 4 ∧ utf8Skip c = 3 ∧ lead c = 0xF) ∨
        (strictState c = strictNode 5 ∧ utf8Skip c = 4 ∧ lead c = 0) ∨
        (strictState c = strictNode 6 ∧ utf8Skip c = 4 ∧ 1 ≤ lead c ∧ lead c ≤ 3) ∨
        (strictState c = strictNode 7 ∧ utf8Skip c = 4 ∧ lead c = 4)) ∧
      ((0xFF : U8) >>> strictUtf8DfaTab.getD c.toNat 0 &&& c).toNat = lead c := by decide +kernel
  obtain ⟨hfirst, hcases, hlead⟩ := hall c h hstate
  refine ⟨hfirst, ?_, hlead⟩
  rcases hcases with hc | hc | hc | hc | hc | hc | hc <;> obtain ⟨hnode, hskip, hl⟩ := hc <;>
    rw [hskip]
  · exact ⟨1, hnode, .one (by simp only [least]; omega) (by omega) (by omega) (by omega)
      (by omega)⟩
  · exact ⟨2, hnode, .two (by simp only [least]; omega) (by omega) (by omega) (by omega)
      (by omega)⟩
  · rw [hl]
    exact ⟨3, hnode, .e0⟩
  · rw [hl]
    exact ⟨4, hnode, .ef⟩
  · rw [hl]
    exact ⟨5, hnode, .f0⟩
  · exact ⟨6, hnode, .f1 hl.1 hl.2⟩
  · rw [hl]
    exact ⟨7, hnode, .f4⟩

theorem Pending.strictLoop_accepts (h : Pending k l p j) (huv : uv.toNat = p)
    (hstate : (strictLoop (strictNode k) uv read rest).1 = 0) :
    ∃ us, rest.take j = us ∧ us.length = j ∧ Continuations us ∧
      Fine (readFrom 64 p (us.map sixBits)) ∧ l ≤ readFrom 64 p (us.map sixBits) ∧
      (strictLoop (strictNode k) uv read rest).2.1.toNat = readFrom 64 p (us.map sixBits) ∧
      (strictLoop (strictNode k) uv read rest).2.2 = read + j := by
  have hrange := h.range
  have hnode : 1 < strictNode k := by
    rw [strictNode]
    omega
  induction rest generalizing k p j uv read with
  | nil =>
    rw [strictLoop] at hstate
    dsimp only at hstate
    omega
  | cons x rest ih =>
    rw [strictLoop, if_pos hnode, strict_next hrange.1 hrange.2.1] at hstate
    rw [strictLoop, if_pos hnode, strict_next hrange.1 hrange.2.1]
    have hlt := sixBits_lt x
    have huv' : (utf8Accumulate uv x).toNat = p * 64 + sixBits x := by
      rw [toNat_accumulate, huv, Nat.mod_eq_of_lt (by omega)]
    have hdone (state : Nat) (hlow : ¬ 1 < state) :
        strictLoop state (utf8Accumulate uv x) (read + 1) rest =
          (state, utf8Accumulate uv x, read + 1) := by
      cases rest with
      | nil => rfl
      | cons y rest => exact if_neg hlow
    rcases h.step x with hstep | hstep
    · obtain ⟨hcont, hstep⟩ := hstep
      rcases hstep with hstep | hstep | hstep
      · obtain ⟨hafter, hj, hfine, hl⟩ := hstep
        subst hj
        rw [hafter, hdone 0 (by decide)]
        refine ⟨[x], rfl, rfl, fun y hy => ?_, hfine, hl, huv', rfl⟩
        rw [List.mem_singleton.1 hy]
        exact hcont
      · obtain ⟨k', hafter, hj, hpending⟩ := hstep
        rw [hafter] at hstate ⊢
        have hrange' := hpending.range
        have hnode' : 1 < strictNode k' := by
          rw [strictNode]
          omega
        obtain ⟨us, hus, hlen, hconts, hfine, hl, hvalue, hread⟩ :=
          ih hpending huv' hstate hrange' hnode'
        obtain ⟨m, hm⟩ : ∃ m, j = m + 1 := ⟨j - 1, by omega⟩
        subst hm
        refine ⟨x :: us, ?_, ?_, List.forall_mem_cons.2 ⟨hcont, hconts⟩, hfine, hl, hvalue, ?_⟩
        · rw [List.take_succ_cons, ← hus]
          rfl
        · rw [List.length_cons, hlen]
          rfl
        · rw [hread]
          omega
      · rw [hstep, hdone 1 (by decide)] at hstate
        cases hstate
    · rw [hstep, hdone 1 (by decide)] at hstate
      cases hstate

end XPerl.Utf8
