import XPerl.Utf8.Sequences
import XPerl.Utf8.WholeStrings

/-! Strings as the operators on their bytes take them. -/

namespace XPerl.StringOps

open XPerl.Utf8

/-- A string: its buffer's address, its bytes and `SvUTF8`. -/
structure Sv where
  address : Nat
  bytes : List U8
  utf8 : Bool
deriving DecidableEq

/-- `sv_utf8_downgrade_flags`, told that it may fail. -/
def svUtf8Downgrade (sv : Sv) : Bool × Sv :=
  if sv.utf8 = true ∧ sv.bytes ≠ [] then
    let r := utf8ToBytes .overwrite 0 sv.address (sv.bytes ++ [0]) sv.bytes.length
    if r.converted then (true, { sv with bytes := r.memory.take r.length, utf8 := false })
    else (false, { sv with bytes := r.memory.take r.length })
  else (true, { sv with utf8 := false })

/-- The loop of `sv_utf8_upgrade_flags_grow` over the bytes from an offset, which writes the string
from its end on, in front of `d`. -/
def upgradeBack (t : Nat) : Nat → List U8 → Nat → List U8
  | 0, block, _ => block
  | k + 1, block, d =>
    if isInvariant (byteAt block (t + k)) then
      upgradeBack t k (block.set (d - 1) (byteAt block (t + k))) (d - 1)
    else
      let block := block.set (d - 1) (eightBitLo (byteAt block (t + k)))
      let block := block.set (d - 2) (eightBitHi (byteAt block (t + k)))
      upgradeBack t k block (d - 2)

/-- `sv_utf8_upgrade_flags_grow`; a grown buffer holds junk behind the string. -/
def svUtf8Upgrade (junk : U8) (sv : Sv) : Sv :=
  if sv.utf8 = true ∨ sv.bytes = [] then { sv with utf8 := true }
  else
    match isUtf8InvariantStringLoc sv.address sv.bytes sv.bytes.length with
    | none => { sv with utf8 := true }
    | some t =>
      let expansion := 1 + variantUnderUtf8Count (sv.address + (t + 1)) (sv.bytes.drop (t + 1))
        (sv.bytes.length - (t + 1))
      let block := sv.bytes ++ List.replicate expansion junk
      { sv with
        bytes := upgradeBack t (sv.bytes.length - t) block (sv.bytes.length + expansion)
        utf8 := true }

theorem svUtf8Downgrade_bytes {sv : Sv} (h : sv.utf8 = false) :
    svUtf8Downgrade sv = (true, sv) := by
  obtain ⟨address, bytes, utf8⟩ := sv
  subst h
  rw [svUtf8Downgrade, if_neg fun hand => by cases hand.1]

theorem stretch_concat {block : List U8} {x e : Nat} (h : x ≤ e) :
    stretch block x (e + 1) = stretch block x e ++ [byteAt block e] := by
  rw [stretch_append block h (Nat.le_succ e), stretch_cons (Nat.lt_succ_self e), stretch_self]

theorem byteAt_set_ne (s : List U8) {q i : Nat} (c : U8) (h : q ≠ i) :
    byteAt (s.set q c) i = byteAt s i := by
  rw [byteAt, byteAt, List.getD_eq_getElem?_getD, List.getD_eq_getElem?_getD,
    List.getElem?_set_ne h]

theorem upgradeBack_eq {block orig : List U8} {t k d : Nat}
    (hunread : ∀ i < t + k, byteAt block i = byteAt orig i)
    (hd : d = t + (upgrade (stretch orig t (t + k))).length) (hlen : d ≤ block.length) :
    upgradeBack t k block d =
      block.take t ++ upgrade (stretch orig t (t + k)) ++ block.drop d := by
  induction k generalizing block d with
  | zero =>
    rw [Nat.add_zero, stretch_self] at hd ⊢
    rw [upgradeBack, hd]
    simp [upgrade]
  | succ k ih =>
    have hbyte := hunread (t + k) (by omega)
    rw [← Nat.add_assoc, stretch_concat (Nat.le_add_right t k), upgrade_append] at hd ⊢
    rw [List.length_append] at hd
    have hlow : k ≤ (upgrade (stretch orig t (t + k))).length := by
      have hlength := length_upgrade (stretch orig t (t + k))
      rw [length_stretch] at hlength
      omega
    rw [upgradeBack, hbyte]
    cases hc : isInvariant (byteAt orig (t + k)) with
    | true =>
      have hone : upgrade [byteAt orig (t + k)] = [byteAt orig (t + k)] := by
        rw [upgrade_cons, encodeByte_invariant hc]
        rfl
      rw [hone, List.length_singleton] at hd
      rw [if_pos rfl, ih]
      · rw [List.take_set_of_le (by omega), hone, List.drop_set, if_neg (by omega), Nat.sub_self,
          List.drop_eq_getElem_cons (by omega), List.set_cons_zero,
          show d - 1 + 1 = d by omega]
        simp
      · intro i hi
        rw [byteAt_set_ne _ _ (by omega), hunread i (by omega)]
      · omega
      · rw [List.length_set]
        omega
    | false =>
      have htwo : upgrade [byteAt orig (t + k)] =
          [eightBitHi (byteAt orig (t + k)), eightBitLo (byteAt orig (t + k))] := by
        rw [upgrade_cons, encodeByte_variant hc]
        rfl
      have hsame : byteAt (block.set (d - 1) (eightBitLo (byteAt orig (t + k)))) (t + k) =
          byteAt orig (t + k) := by
        rw [htwo] at hd
        simp only [List.length_cons, List.length_nil] at hd
        rw [byteAt_set_ne _ _ (by omega), hbyte]
      rw [htwo] at hd
      simp only [List.length_cons, List.length_nil] at hd
      rw [if_neg (by simp)]
      dsimp only
      rw [hsame, ih]
      · rw [List.take_set_of_le (by omega), List.take_set_of_le (by omega), htwo, List.drop_set,
          if_neg (by omega), Nat.sub_self, List.drop_set, if_neg (by omega),
          List.drop_eq_getElem_cons (by omega), show d - 1 - (d - 2) = 0 + 1 by omega,
          List.set_cons_succ, List.set_cons_zero, show d - 2 + 1 = d - 1 by omega,
          List.drop_eq_getElem_cons (by omega), List.set_cons_zero,
          show d - 1 + 1 = d by omega]
        simp
      · intro i hi
        rw [byteAt_set_ne _ _ (by omega), byteAt_set_ne _ _ (by omega), hunread i (by omega)]
      · omega
      · rw [List.length_set, List.length_set]
        omega

/-- A string has the characters, which its bytes are or encode. -/
def Sv.Holds (sv : Sv) (chars : List U8) : Prop :=
  sv.bytes = if sv.utf8 then upgrade chars else chars

theorem svUtf8Upgrade_holds {sv : Sv} {chars : List U8} (junk : U8) (h : sv.utf8 = false)
    (hholds : sv.Holds chars) :
    (svUtf8Upgrade junk sv).Holds chars ∧ (svUtf8Upgrade junk sv).utf8 = true := by
  obtain ⟨address, bytes, utf8⟩ := sv
  subst h
  obtain rfl : bytes = chars := hholds
  have hself (hinv : InvariantOn bytes 0 bytes.length) : upgrade bytes = bytes := by
    have hstretch := upgrade_invariant (invariant_stretch hinv)
    rw [stretch_zero (Nat.le_refl _), List.take_length] at hstretch
    exact hstretch
  have hscan := isUtf8InvariantStringLoc_scans address bytes bytes.length
  rw [svUtf8Upgrade]
  by_cases hnil : bytes = []
  · subst hnil
    rw [if_pos (.inr rfl)]
    exact ⟨rfl, rfl⟩
  · rw [if_neg (by simpa using hnil)]
    dsimp only
    cases hloc : isUtf8InvariantStringLoc address bytes bytes.length with
    | none =>
      rw [hloc] at hscan
      exact ⟨(hself hscan).symm, rfl⟩
    | some t =>
      rw [hloc] at hscan
      obtain ⟨-, hlt, hvariant, hbefore⟩ := hscan
      refine ⟨?_, rfl⟩
      have hcount : 1 + variantUnderUtf8Count (address + (t + 1)) (bytes.drop (t + 1))
          (bytes.length - (t + 1)) = (bytes.drop t).countP fun c => !isInvariant c := by
        have hfirst : bytes[t] = byteAt bytes t := (List.getD_eq_getElem bytes 0 hlt).symm
        rw [variantUnderUtf8Count_eq, variantsOn, countOn_eq_countP (fun c => !isInvariant c),
          stretch_zero (by rw [List.length_drop]), ← List.length_drop, List.take_length,
          List.drop_eq_getElem_cons hlt, List.countP_cons, hfirst, hvariant, Nat.add_comm]
        rfl
      have hrest : stretch bytes t bytes.length = bytes.drop t := by
        have happend := stretch_append bytes (Nat.zero_le t) (Nat.le_of_lt hlt)
        rw [stretch_zero (Nat.le_refl _), stretch_zero (Nat.le_of_lt hlt), List.take_length] at happend
        exact List.append_cancel_left (happend.symm.trans (List.take_append_drop t bytes).symm)
      have hfront : upgrade (bytes.take t) = bytes.take t := by
        rw [← stretch_zero (Nat.le_of_lt hlt)]
        exact upgrade_invariant (invariant_stretch hbefore)
      have hlength := length_upgrade (bytes.drop t)
      rw [List.length_drop] at hlength
      show upgradeBack t (bytes.length - t) _ _ = upgrade bytes
      rw [hcount]
      generalize ((bytes.drop t).countP fun c => !isInvariant c) = n at hlength ⊢
      have hrun : upgradeBack t (bytes.length - t) (bytes ++ List.replicate n junk)
          (bytes.length + n) = (bytes ++ List.replicate n junk).take t ++
            upgrade (stretch bytes t (t + (bytes.length - t))) ++
            (bytes ++ List.replicate n junk).drop (bytes.length + n) := by
        apply upgradeBack_eq
        · intro i hi
          rw [byteAt, byteAt, List.getD_append _ _ _ _ (by omega)]
        · rw [Nat.add_sub_cancel' (Nat.le_of_lt hlt), hrest]
          omega
        · rw [List.length_append, List.length_replicate]
      have hend : (bytes ++ List.replicate n junk).drop (bytes.length + n) = [] :=
        List.drop_eq_nil_of_le (by rw [List.length_append, List.length_replicate])
      rw [Nat.add_sub_cancel' (Nat.le_of_lt hlt), hrest, hend, List.append_nil,
        List.take_append_of_le_length (Nat.le_of_lt hlt)] at hrun
      rw [hrun]
      conv_rhs => rw [← List.take_append_drop t bytes, upgrade_append, hfront]

end XPerl.StringOps
