import Mathlib.Data.List.GetD
import XPerl.Utf8.Bytes

/-! Byte strings made UTF-8, and back in the two passes of `utf8_to_bytes_`. -/

namespace XPerl.Utf8

open XPerl.Framework.Lanes

/-- The UTF-8 of the character with the number of a byte. -/
def encodeByte (c : U8) : List U8 := if isInvariant c then [c] else [eightBitHi c, eightBitLo c]

def upgrade (bytes : List U8) : List U8 := bytes.flatMap encodeByte

theorem upgrade_cons (c : U8) (bytes : List U8) :
    upgrade (c :: bytes) = encodeByte c ++ upgrade bytes := List.flatMap_cons

variable {c lo : U8} {block : List U8} {x e : Nat}

theorem encodeByte_invariant (h : isInvariant c = true) : encodeByte c = [c] := if_pos h

theorem encodeByte_variant (h : isInvariant c = false) :
    encodeByte c = [eightBitHi c, eightBitLo c] := by
  rw [encodeByte, h]
  rfl

theorem eightBit_bytes (h : isInvariant c = false) :
    isInvariant (eightBitHi c) = false ∧ isDowngradeableStart (eightBitHi c) = true ∧
      isContinuation (eightBitHi c) = false ∧ isInvariant (eightBitLo c) = false ∧
      isContinuation (eightBitLo c) = true ∧
      eightBitUtf8ToNative (eightBitHi c) (eightBitLo c) = c := by
  revert c
  decide

theorem downgradeable_bytes {hi : U8} (h : isDowngradeableStart hi = true) :
    hi = 0xC2 ∨ hi = 0xC3 := by
  revert hi
  decide

theorem native_of_c2 (h : isContinuation lo = true) :
    isInvariant (eightBitUtf8ToNative 0xC2 lo) = false ∧
      eightBitHi (eightBitUtf8ToNative 0xC2 lo) = 0xC2 ∧
      eightBitLo (eightBitUtf8ToNative 0xC2 lo) = lo := by
  revert lo
  decide

theorem native_of_c3 (h : isContinuation lo = true) :
    isInvariant (eightBitUtf8ToNative 0xC3 lo) = false ∧
      eightBitHi (eightBitUtf8ToNative 0xC3 lo) = 0xC3 ∧
      eightBitLo (eightBitUtf8ToNative 0xC3 lo) = lo := by
  revert lo
  decide

theorem encodeByte_native {hi : U8} (hhi : isDowngradeableStart hi = true)
    (hlo : isContinuation lo = true) : encodeByte (eightBitUtf8ToNative hi lo) = [hi, lo] := by
  rcases downgradeable_bytes hhi with hc2 | hc3
  · subst hc2
    obtain ⟨hvariant, hhi', hlo'⟩ := native_of_c2 hlo
    rw [encodeByte_variant hvariant, hhi', hlo']
  · subst hc3
    obtain ⟨hvariant, hhi', hlo'⟩ := native_of_c3 hlo
    rw [encodeByte_variant hvariant, hhi', hlo']

theorem length_encodeByte (c : U8) : (encodeByte c).length = 1 + (!isInvariant c).toNat := by
  rw [encodeByte]
  cases isInvariant c <;> rfl

theorem length_upgrade (bytes : List U8) :
    (upgrade bytes).length = bytes.length + bytes.countP fun c => !isInvariant c := by
  induction bytes with
  | nil => rfl
  | cons c bytes ih =>
    rw [upgrade_cons, List.length_append, length_encodeByte, ih, List.length_cons,
      List.countP_cons]
    cases isInvariant c <;> simp <;> omega

def stretch (block : List U8) (x e : Nat) : List U8 := (List.range' x (e - x)).map (byteAt block)

theorem stretch_self (block : List U8) (x : Nat) : stretch block x x = [] := by
  rw [stretch, Nat.sub_self]
  rfl

theorem stretch_eq_nil (h : e ≤ x) : stretch block x e = [] := by
  rw [stretch, Nat.sub_eq_zero_of_le h]
  rfl

theorem stretch_cons (h : x < e) :
    stretch block x e = byteAt block x :: stretch block (x + 1) e := by
  rw [stretch, stretch, show e - x = (e - (x + 1)) + 1 by omega, List.range'_succ]
  rfl

theorem length_stretch (block : List U8) (x e : Nat) : (stretch block x e).length = e - x := by
  rw [stretch, List.length_map, List.length_range']

theorem stretch_append (block : List U8) {y z : Nat} (hxy : x ≤ y) (hyz : y ≤ z) :
    stretch block x z = stretch block x y ++ stretch block y z := by
  have happend : List.range' x (y - x) ++ List.range' (x + (y - x)) (z - y) =
      List.range' x ((y - x) + (z - y)) := List.range'_append_1
  rw [Nat.add_sub_cancel' hxy] at happend
  rw [stretch, stretch, stretch, ← List.map_append, happend]
  congr 2
  omega

theorem stretch_zero (h : e ≤ block.length) :
    stretch block 0 e = block.take e := by
  apply List.ext_getElem
  · rw [length_stretch, List.length_take]
    omega
  · intro i hi hi'
    rw [length_stretch] at hi
    simp only [stretch, List.getElem_map, List.getElem_range', List.getElem_take, byteAt]
    rw [List.getD_eq_getElem _ _ (by omega)]
    congr 1
    omega

theorem upgrade_boundary {p : Nat} {bytes : List U8}
    (h : stretch block x e = upgrade bytes) (hxp : x ≤ p) (hpe : p ≤ e) :
    (∃ rest, stretch block p e = upgrade rest) ∨
      x < p ∧ isDowngradeableStart (byteAt block (p - 1)) = true ∧
        isContinuation (byteAt block p) = true := by
  induction bytes generalizing x with
  | nil =>
    have hlength : e - x = 0 := (length_stretch block x e).symm.trans (congrArg List.length h)
    have hp : p = e := by omega
    exact Or.inl ⟨[], by rw [hp, stretch_self]; rfl⟩
  | cons c bytes ih =>
    rcases Nat.eq_or_lt_of_le hxp with heq | hlt
    · subst heq
      exact Or.inl ⟨c :: bytes, h⟩
    · have hx : x < e := by omega
      rw [stretch_cons hx, upgrade_cons] at h
      cases hc : isInvariant c with
      | true =>
        rw [encodeByte_invariant hc] at h
        rcases ih (List.cons.inj h).2 hlt with hrest | ⟨hxp', hpair⟩
        · exact Or.inl hrest
        · exact Or.inr ⟨hlt, hpair⟩
      | false =>
        obtain ⟨-, hdown, -, -, hlo, -⟩ := eightBit_bytes hc
        rw [encodeByte_variant hc] at h
        obtain ⟨hfirst, htail⟩ := List.cons.inj h
        by_cases hx' : x + 1 < e
        · rw [stretch_cons hx'] at htail
          obtain ⟨hnext, hrest⟩ := List.cons.inj htail
          rcases Nat.eq_or_lt_of_le hlt with heq | hlt'
          · subst heq
            refine Or.inr ⟨hlt, ?_, ?_⟩
            · rw [Nat.succ_eq_add_one, Nat.add_sub_cancel, hfirst]
              exact hdown
            · rw [Nat.succ_eq_add_one, hnext]
              exact hlo
          · rcases ih hrest hlt' with hrest' | ⟨hxp', hpair⟩
            · exact Or.inl hrest'
            · exact Or.inr ⟨hlt, hpair⟩
        · rw [stretch_eq_nil (Nat.not_lt.1 hx')] at htail
          cases htail

/-- What the first pass lets through: ASCII, continuation bytes, and the start bytes C2 and C3. -/
def isPlausible (c : U8) : Bool := isInvariant c || isContinuation c || isDowngradeableStart c

def PlausibleOn (block : List U8) (x e : Nat) : Prop :=
  ∀ i, x ≤ i → i < e → isPlausible (byteAt block i) = true

def startsOn (block : List U8) (x e : Nat) : Nat :=
  countOn (fun i => isDowngradeableStart (byteAt block i)) x e

variable {y send n s count total : Nat} {bytes src dst : List U8} {overwrite : Bool}

variable {z bound address len v : Nat}

theorem startsOn_split (block : List U8) (hxy : x ≤ y) (hyz : y ≤ z) :
    startsOn block x z = startsOn block x y + startsOn block y z := countOn_split _ hxy hyz

theorem startsOn_one (block : List U8) (x : Nat) :
    startsOn block x (x + 1) = (isDowngradeableStart (byteAt block x)).toNat := countOn_one _ x

theorem PlausibleOn.append (h : PlausibleOn block x y)
    (h' : PlausibleOn block y z) : PlausibleOn block x z := by
  intro i hx hz
  by_cases hi : i < y
  · exact h i hx hi
  · exact h' i (Nat.not_lt.1 hi) hz

theorem plausibleOn_one (h : isPlausible (byteAt block x) = true) :
    PlausibleOn block x (x + 1) := by
  intro i hx hi
  rw [Nat.le_antisymm (Nat.le_of_lt_succ hi) hx]
  exact h

theorem PlausibleOn.mono {x' y' : Nat} (h : PlausibleOn block x y)
    (hx : x ≤ x') (hy : y' ≤ y) : PlausibleOn block x' y' :=
  fun i hi hi' => h i (hx.trans hi) (hi'.trans_le hy)

theorem classes_disjoint (c : U8) :
    (isInvariant c = true → isContinuation c = false ∧ isDowngradeableStart c = false) ∧
      (isContinuation c = true → isDowngradeableStart c = false) := by
  revert c
  decide

theorem start_of_plausible {c : U8} (h : isPlausible c = true) :
    isStart c = isDowngradeableStart c := by
  revert c
  decide

theorem plausible_iff_lanes (c : U8) :
    isPlausible c = true ↔ decide ((c &&& 0xC0) ^^^ 0xC0 = 0) = decide ((c &&& 0xFE) ^^^ 0xC2 = 0) := by
  revert c
  decide

theorem c2C3_lane (c : U8) : decide ((c &&& 0xFE) ^^^ 0xC2 = 0) = isDowngradeableStart c := by
  revert c
  decide

theorem startBytes_loadWord (block : List U8) (x : Nat) :
    startBytes (loadWord block x) =
      marks fun i => (byteAt block (x + i) &&& 0xC0) ^^^ 0xC0 = 0 := by
  have hmask : (0xC0C0C0C0C0C0C0C0 : BitVec 64) = ofBytes fun _ => 0xC0 := by decide
  rw [startBytes, hmask, loadWord, ofBytes_and, ofBytes_xor, zeroLanes_ofBytes]

theorem c2C3StartBytes_loadWord (block : List U8) (x : Nat) :
    c2C3StartBytes (loadWord block x) =
      marks fun i => (byteAt block (x + i) &&& 0xFE) ^^^ 0xC2 = 0 := by
  have hmask : (0xFEFEFEFEFEFEFEFE : BitVec 64) = ofBytes fun _ => 0xFE := by decide
  have hstart : (0xC2C2C2C2C2C2C2C2 : BitVec 64) = ofBytes fun _ => 0xC2 := by decide
  rw [c2C3StartBytes, hmask, hstart, loadWord, ofBytes_and, ofBytes_xor, zeroLanes_ofBytes]

theorem marks_inj {c d : Nat → Bool} : marks c = marks d ↔ ∀ i < 8, c i = d i := by
  rw [marks, marks, ofBytes_inj]
  apply forall₂_congr
  intro i _
  cases c i <;> cases d i <;> decide

theorem startBytes_eq_iff (block : List U8) (x : Nat) :
    startBytes (loadWord block x) = c2C3StartBytes (loadWord block x) ↔
      PlausibleOn block x (x + 8) := by
  rw [startBytes_loadWord, c2C3StartBytes_loadWord, marks_inj]
  constructor
  · intro h i hx hi
    have hlane := h (i - x) (by omega)
    rw [Nat.add_sub_cancel' hx] at hlane
    exact (plausible_iff_lanes _).2 hlane
  · intro h i hi
    exact (plausible_iff_lanes _).1 (h (x + i) (by omega) (by omega))

theorem count_startBytes (h : PlausibleOn block x (x + 8)) :
    (((startBytes (loadWord block x) >>> 7) * 0x0101010101010101) >>> 56).toNat =
      startsOn block x (x + 8) := by
  rw [(startBytes_eq_iff block x).2 h, c2C3StartBytes_loadWord, count_loadWord, startsOn,
    ← countOn_word]
  apply List.countP_congr
  intro i _
  rw [c2C3_lane]

theorem checkBytes_some
    (hfuel : bound ≤ s + n) (h : checkBytes block send bound n s count = some total) :
    total = count + startsOn block s bound ∧ PlausibleOn block s bound := by
  induction n generalizing s count with
  | zero =>
    have hnone : bound - s = 0 := Nat.sub_eq_zero_of_le hfuel
    rw [checkBytes] at h
    cases h
    refine ⟨?_, fun i hi hi' => by omega⟩
    rw [startsOn, countOn, hnone]
    rfl
  | succ n ih =>
    rw [checkBytes] at h
    by_cases hs : s < bound
    · rw [if_pos hs] at h
      rw [startsOn_split block (Nat.le_add_right s 1) hs, startsOn_one]
      by_cases hc : isInvariant (byteAt block s) = true
      · rw [if_pos hc] at h
        obtain ⟨htotal, hrest⟩ := ih (by omega) h
        have hstart := ((classes_disjoint _).1 hc).2
        refine ⟨?_, PlausibleOn.append (plausibleOn_one ?_) hrest⟩
        · rw [hstart, htotal]
          simp
        · rw [isPlausible, hc]
          rfl
      · rw [if_neg hc] at h
        by_cases hpair : isNextCharDowngradeable block s send = true
        · rw [if_pos hpair] at h
          obtain ⟨-, hhi, hlo⟩ := of_decide_eq_true hpair
          obtain ⟨htotal, hrest⟩ := ih (by omega) h
          have hlo' := (classes_disjoint _).2 hlo
          have hfirst : PlausibleOn block s (s + 1) := plausibleOn_one (by
            rw [isPlausible, hhi, Bool.or_true])
          have hsecond : PlausibleOn block (s + 1) (s + 2) := plausibleOn_one (by
            rw [isPlausible, hlo, Bool.or_true, Bool.true_or])
          rw [hhi]
          by_cases hs' : s + 1 < bound
          · refine ⟨?_, (hfirst.append hsecond).append hrest⟩
            have hsecond' : startsOn block (s + 1) (s + 2) = 0 := by
              rw [startsOn_one, hlo']
              rfl
            rw [htotal, startsOn_split block (show s + 1 ≤ s + 2 by omega) hs', hsecond',
              Bool.toNat_true]
            omega
          · have hbound : bound = s + 1 := by omega
            subst hbound
            refine ⟨?_, hfirst⟩
            rw [htotal, startsOn, countOn, startsOn, countOn]
            simp
        · rw [if_neg hpair] at h
          cases h
    · rw [if_neg hs] at h
      cases h
      refine ⟨?_, fun i hi hi' => by omega⟩
      rw [startsOn, countOn, Nat.sub_eq_zero_of_le (Nat.not_lt.1 hs)]
      rfl

theorem checkBytes_isSome
    (hbound : bound ≤ send) (h : stretch block s send = upgrade bytes) :
    (checkBytes block send bound n s count).isSome := by
  induction n generalizing s count bytes with
  | zero => rfl
  | succ n ih =>
    rw [checkBytes]
    by_cases hs : s < bound
    · rw [if_pos hs]
      have hsend : s < send := hs.trans_le hbound
      cases bytes with
      | nil =>
        rw [stretch_cons hsend] at h
        cases h
      | cons c bytes =>
        have hcons := h
        rw [stretch_cons hsend, upgrade_cons] at hcons
        cases hc : isInvariant c with
        | true =>
          rw [encodeByte_invariant hc] at hcons
          obtain ⟨hfirst, hrest⟩ := List.cons.inj hcons
          rw [hfirst, if_pos hc]
          exact ih hrest
        | false =>
          rw [encodeByte_variant hc] at hcons
          obtain ⟨hfirst, hrest⟩ := List.cons.inj hcons
          obtain ⟨hhi, hdown, -, -, hlo, -⟩ := eightBit_bytes hc
          have hs' : s + 1 < send := by
            by_contra hnot
            rw [stretch_eq_nil (Nat.not_lt.1 hnot)] at hrest
            cases hrest
          rw [stretch_cons hs'] at hrest
          obtain ⟨hsecond, hrest'⟩ := List.cons.inj hrest
          have hpair : isNextCharDowngradeable block s send = true := by
            rw [isNextCharDowngradeable, hfirst, hsecond, hdown, hlo]
            exact decide_eq_true ⟨by omega, rfl, rfl⟩
          rw [hfirst, hhi, if_neg Bool.false_ne_true, if_pos hpair]
          exact ih hrest'
    · rw [if_neg hs]
      rfl

theorem checkWords_some
    (hfuel : send ≤ s + n) (hs : s + 8 ≤ send)
    (h : checkWords block send n s count = some (e, total)) :
    s + 8 ≤ e ∧ e ≤ send ∧ total = count + startsOn block s e ∧ PlausibleOn block s e := by
  induction n generalizing s count with
  | zero => omega
  | succ n ih =>
    rw [checkWords] at h
    by_cases hword : startBytes (loadWord block s) = c2C3StartBytes (loadWord block s)
    · have hstarts := (startBytes_eq_iff block s).1 hword
      rw [if_neg (not_not.2 hword), count_startBytes hstarts] at h
      by_cases hmore : s + 16 ≤ send
      · rw [if_pos hmore] at h
        obtain ⟨hle, he, htotal, hrest⟩ := ih (by omega) (by omega) h
        refine ⟨by omega, he, ?_, hstarts.append hrest⟩
        rw [htotal, startsOn_split block (Nat.le_add_right s 8) (by omega : s + 8 ≤ e)]
        omega
      · rw [if_neg hmore] at h
        cases h
        exact ⟨Nat.le_refl _, hs, rfl, hstarts⟩
    · rw [if_pos hword] at h
      cases h

theorem checkWords_isSome
    (hfuel : send ≤ s + n) (hs : s + 8 ≤ send) (h : PlausibleOn block s send) :
    (checkWords block send n s count).isSome := by
  induction n generalizing s count with
  | zero => omega
  | succ n ih =>
    rw [checkWords, if_neg (not_not.2 ((startBytes_eq_iff block s).2 (h.mono (Nat.le_refl s) hs)))]
    dsimp only
    by_cases hmore : s + 16 ≤ send
    · rw [if_pos hmore]
      exact ih (by omega) (by omega) (h.mono (by omega) (Nat.le_refl _))
    · rw [if_neg hmore]
      rfl

theorem plausibleOn_of_upgrade
    (h : stretch block x e = upgrade bytes) : PlausibleOn block x e := by
  have hall : ∀ c ∈ upgrade bytes, isPlausible c = true := by
    intro c hc
    rw [upgrade, List.mem_flatMap] at hc
    obtain ⟨byte, -, hmem⟩ := hc
    cases hbyte : isInvariant byte with
    | true =>
      rw [encodeByte_invariant hbyte, List.mem_singleton] at hmem
      rw [hmem, isPlausible, hbyte]
      rfl
    | false =>
      obtain ⟨-, hdown, -, -, hlo, -⟩ := eightBit_bytes hbyte
      rw [encodeByte_variant hbyte, List.mem_cons, List.mem_singleton] at hmem
      rcases hmem with hmem | hmem
      · rw [hmem, isPlausible, hdown, Bool.or_true]
      · rw [hmem, isPlausible, hlo, Bool.or_true, Bool.true_or]
  intro i hx hi
  apply hall
  rw [← h, stretch]
  exact List.mem_map_of_mem (List.mem_range'_1.2 ⟨hx, by omega⟩)

theorem firstPass_some
    (h : firstPass address block len v = some total) :
    total = startsOn block v len ∧ PlausibleOn block v len := by
  rw [firstPass] at h
  cases hworth : worthPerWordLoop address v len 5 with
  | none =>
    rw [hworth] at h
    obtain ⟨htotal, hstarts⟩ := checkBytes_some (by omega) h
    exact ⟨htotal.trans (Nat.zero_add _), hstarts⟩
  | some perByteEnd =>
    obtain ⟨hle, hlong⟩ := worthPerWordLoop_eq_some hworth
    rw [hworth] at h
    dsimp only at h
    cases hbytes : checkBytes block len perByteEnd perByteEnd v 0 with
    | none =>
      rw [hbytes] at h
      cases h
    | some count =>
      rw [hbytes] at h
      cases hwords : checkWords block len len perByteEnd count with
      | none =>
        rw [Option.bind_eq_bind, Option.bind_some, hwords] at h
        cases h
      | some stop =>
        obtain ⟨s, count'⟩ := stop
        rw [Option.bind_eq_bind, Option.bind_some, hwords] at h
        obtain ⟨hcount, hhead⟩ := checkBytes_some (by omega) hbytes
        obtain ⟨hes, hse, hcount', hmiddle⟩ := checkWords_some (by omega) (by omega) hwords
        have hfront := hhead.append hmiddle
        have hstarts := startsOn_split block hle (show perByteEnd ≤ s by omega)
        change (if v < s ∧ isStart (byteAt block (s - 1)) = true then
          checkBytes block len len len (s - 1) (count' - 1)
          else checkBytes block len len len s count') = some total at h
        split at h
        · rename_i hback
          obtain ⟨-, hstart⟩ := hback
          obtain ⟨htotal, htail⟩ := checkBytes_some (by omega) h
          have hlast : startsOn block (s - 1) s = 1 := by
            have hone := startsOn_one block (s - 1)
            rw [show s - 1 + 1 = s by omega] at hone
            rw [hone, ← start_of_plausible (hfront (s - 1) (by omega) (by omega)), hstart]
            rfl
          have hsplit := startsOn_split block (show v ≤ s - 1 by omega) (show s - 1 ≤ s by omega)
          refine ⟨?_, (hfront.mono (Nat.le_refl v) (show s - 1 ≤ s by omega)).append htail⟩
          rw [startsOn_split block (show v ≤ s - 1 by omega) (show s - 1 ≤ len by omega)]
          omega
        · obtain ⟨htotal, htail⟩ := checkBytes_some (by omega) h
          refine ⟨?_, hfront.append htail⟩
          rw [startsOn_split block (show v ≤ s by omega) hse]
          omega

theorem firstPass_isSome
    (h : stretch block v len = upgrade bytes) :
    (firstPass address block len v).isSome := by
  rw [firstPass]
  cases hworth : worthPerWordLoop address v len 5 with
  | none => exact checkBytes_isSome (Nat.le_refl _) h
  | some perByteEnd =>
    obtain ⟨hle, hlong⟩ := worthPerWordLoop_eq_some hworth
    have hstarts := plausibleOn_of_upgrade h
    have hsomeBytes : (checkBytes block len perByteEnd perByteEnd v 0).isSome :=
      checkBytes_isSome (show perByteEnd ≤ len by omega) h
    obtain ⟨count, hbytes⟩ := Option.isSome_iff_exists.1 hsomeBytes
    have hsomeWords : (checkWords block len len perByteEnd count).isSome :=
      checkWords_isSome (show len ≤ perByteEnd + len by omega) (by omega)
        (hstarts.mono hle (Nat.le_refl _))
    obtain ⟨stop, hwords⟩ := Option.isSome_iff_exists.1 hsomeWords
    obtain ⟨s, count'⟩ := stop
    obtain ⟨hes, hse, -, -⟩ := checkWords_some (by omega) (by omega) hwords
    dsimp only
    rw [hbytes, Option.bind_eq_bind, Option.bind_some, hwords]
    change (if v < s ∧ isStart (byteAt block (s - 1)) = true then
      checkBytes block len len len (s - 1) (count' - 1)
      else checkBytes block len len len s count').isSome = true
    have hlast := start_of_plausible (hstarts (s - 1) (by omega) (by omega))
    split
    · rename_i hback
      rw [hlast] at hback
      rcases upgrade_boundary h (show v ≤ s - 1 by omega) (show s - 1 ≤ len by omega) with
        ⟨rest, hrest⟩ | ⟨-, -, hcontinues⟩
      · exact checkBytes_isSome (Nat.le_refl _) hrest
      · rw [(classes_disjoint _).2 hcontinues] at hback
        exact absurd hback.2 Bool.false_ne_true
    · rename_i hon
      rw [hlast] at hon
      rcases upgrade_boundary h (show v ≤ s by omega) hse with ⟨rest, hrest⟩ | ⟨hlt, hstart, -⟩
      · exact checkBytes_isSome (Nat.le_refl _) hrest
      · exact absurd ⟨hlt, hstart⟩ hon

theorem byteAt_set_ne {i j : Nat} (h : i ≠ j) (c : U8) :
    byteAt (block.set i c) j = byteAt block j := by
  rw [byteAt, byteAt, List.getD_eq_getElem?_getD, List.getD_eq_getElem?_getD,
    List.getElem?_set_ne h]

/-- What is still to be read has not been written over. -/
structure Unread (overwrite : Bool) (src dst : List U8) (s d : Nat) : Prop where
  same : ∀ i, s ≤ i → byteAt (if overwrite then dst else src) i = byteAt src i
  behind : overwrite = true → d ≤ s

theorem Unread.write {d : Nat}
    (h : Unread overwrite src dst s d) (c : U8) {s' : Nat} (hs : s < s') :
    Unread overwrite src (dst.set d c) s' (d + 1) := by
  cases overwrite with
  | false => exact ⟨fun i hi => h.same i (by omega), fun hfalse => by cases hfalse⟩
  | true =>
    have hd := h.behind rfl
    constructor
    · intro i hi
      show byteAt (dst.set d c) i = byteAt src i
      rw [byteAt_set_ne (by omega)]
      exact h.same i (by omega)
    · intro _
      omega

theorem take_set_succ {d : Nat} (h : d < dst.length) (c : U8) :
    (dst.set d c).take (d + 1) = dst.take d ++ [c] := by
  rw [List.take_add_one, List.take_set_of_le (Nat.le_refl d), List.getElem?_set_self h]
  rfl

theorem convert_done {d : Nat}
    (hfuel : send ≤ s + n) (hunread : Unread overwrite src dst s d)
    (h : stretch src s send = upgrade bytes) (hroom : d + bytes.length ≤ dst.length) :
    ∃ dst', convert overwrite src send n dst s d = .done dst' (d + bytes.length) ∧
      dst'.length = dst.length ∧ dst'.take (d + bytes.length) = dst.take d ++ bytes := by
  induction n generalizing dst s d bytes with
  | zero =>
    rw [stretch_eq_nil (show send ≤ s from hfuel)] at h
    cases bytes with
    | nil => exact ⟨dst, rfl, rfl, (List.append_nil _).symm⟩
    | cons c bytes =>
      have hlength := congrArg List.length h
      rw [length_upgrade, List.length_cons, List.length_nil] at hlength
      omega
  | succ n ih =>
    cases bytes with
    | nil =>
      have hlength : send - s = 0 := (length_stretch src s send).symm.trans (congrArg List.length h)
      rw [convert, if_neg (by omega)]
      exact ⟨dst, rfl, rfl, (List.append_nil _).symm⟩
    | cons c bytes =>
      rw [List.length_cons] at hroom
      have hs : s < send := by
        by_contra hnot
        rw [stretch_eq_nil (Nat.not_lt.1 hnot)] at h
        have hlength := congrArg List.length h
        rw [length_upgrade, List.length_cons, List.length_nil] at hlength
        omega
      have htake := take_set_succ (show d < dst.length by omega) c
      rw [stretch_cons hs, upgrade_cons] at h
      rw [convert, if_pos hs]
      dsimp only
      rw [hunread.same s (Nat.le_refl s), hunread.same (s + 1) (Nat.le_succ s)]
      cases hc : isInvariant c with
      | true =>
        rw [encodeByte_invariant hc] at h
        obtain ⟨hfirst, hrest⟩ := List.cons.inj h
        rw [hfirst, if_pos hc]
        obtain ⟨dst', hrun, hlength, hbytes⟩ := ih (by omega)
          (hunread.write c (Nat.lt_succ_self s)) hrest (by rw [List.length_set]; omega)
        rw [List.length_set] at hlength
        rw [htake, List.append_assoc] at hbytes
        rw [List.length_cons, show d + (bytes.length + 1) = d + 1 + bytes.length by omega]
        exact ⟨dst', hrun, hlength, hbytes⟩
      | false =>
        rw [encodeByte_variant hc] at h
        obtain ⟨hfirst, htail⟩ := List.cons.inj h
        obtain ⟨hhi, -, hnot, -, hlo, hnative⟩ := eightBit_bytes hc
        have hs' : s + 1 < send := by
          by_contra hnone
          rw [stretch_eq_nil (Nat.not_lt.1 hnone)] at htail
          cases htail
        rw [stretch_cons hs'] at htail
        obtain ⟨hsecond, hrest⟩ := List.cons.inj htail
        have hgood : ¬ (isContinuation (eightBitHi c) = true ∨ send ≤ s + 1 ∨
            ¬ isContinuation (eightBitLo c) = true) := by
          intro hbad
          rcases hbad with hcont | hend | hbad
          · exact absurd (hnot.symm.trans hcont) Bool.false_ne_true
          · omega
          · exact hbad hlo
        rw [hfirst, hsecond, hhi, if_neg Bool.false_ne_true, if_neg hgood, hnative]
        obtain ⟨dst', hrun, hlength, hbytes⟩ := ih (by omega)
          (hunread.write c (Nat.lt_add_of_pos_right (Nat.succ_pos 1))) hrest
          (by rw [List.length_set]; omega)
        rw [List.length_set] at hlength
        rw [htake, List.append_assoc] at hbytes
        rw [List.length_cons, show d + (bytes.length + 1) = d + 1 + bytes.length by omega]
        exact ⟨dst', hrun, hlength, hbytes⟩

theorem upgrade_of_convert {dst' : List U8} {d d' : Nat}
    (hfuel : send ≤ s + n) (hunread : Unread overwrite src dst s d)
    (hstarts : PlausibleOn src s send)
    (h : convert overwrite src send n dst s d = .done dst' d') :
    ∃ bytes, stretch src s send = upgrade bytes := by
  induction n generalizing dst s d with
  | zero => exact ⟨[], stretch_eq_nil hfuel⟩
  | succ n ih =>
    rw [convert] at h
    by_cases hs : s < send
    · rw [if_pos hs] at h
      dsimp only at h
      rw [hunread.same s (Nat.le_refl s), hunread.same (s + 1) (Nat.le_succ s)] at h
      cases hc : isInvariant (byteAt src s) with
      | true =>
        rw [if_pos hc] at h
        obtain ⟨bytes, hrest⟩ := ih (by omega) (hunread.write _ (Nat.lt_succ_self s))
          (hstarts.mono (Nat.le_succ s) (Nat.le_refl send)) h
        refine ⟨byteAt src s :: bytes, ?_⟩
        rw [stretch_cons hs, hrest, upgrade_cons, encodeByte_invariant hc]
        rfl
      | false =>
        rw [hc, if_neg Bool.false_ne_true] at h
        by_cases hbad : isContinuation (byteAt src s) = true ∨ send ≤ s + 1 ∨
            ¬ isContinuation (byteAt src (s + 1)) = true
        · rw [if_pos hbad] at h
          cases h
        · rw [if_neg hbad] at h
          obtain ⟨bytes, hrest⟩ := ih (by omega)
            (hunread.write _ (Nat.lt_add_of_pos_right (Nat.succ_pos 1)))
            (hstarts.mono (Nat.le_add_right s 2) (Nat.le_refl send)) h
          have hs' : s + 1 < send := by
            by_contra hnot
            exact hbad (Or.inr (Or.inl (Nat.not_lt.1 hnot)))
          have hhi : isDowngradeableStart (byteAt src s) = true := by
            have hkind := hstarts s (Nat.le_refl s) hs
            rw [isPlausible, hc, Bool.false_or, Bool.or_eq_true] at hkind
            exact hkind.resolve_left fun hcont => hbad (Or.inl hcont)
          have hlo : isContinuation (byteAt src (s + 1)) = true := by
            by_contra hnot
            exact hbad (Or.inr (Or.inr hnot))
          refine ⟨eightBitUtf8ToNative (byteAt src s) (byteAt src (s + 1)) :: bytes, ?_⟩
          rw [stretch_cons hs, stretch_cons hs', hrest, upgrade_cons, encodeByte_native hhi hlo]
          rfl
    · exact ⟨[], stretch_eq_nil (Nat.not_lt.1 hs)⟩

end XPerl.Utf8
