import XPerl.Utf8.Upgrade

/-! Strings as bytes and as UTF-8: what the conversions promise. -/

namespace XPerl.Utf8

variable {dst block bytes : List U8} {x e len v : Nat}

variable {c : U8} {d address : Nat} {resultAs : ResultAs} {input : List U8}

theorem appendUtf8FromNativeByte_eq
    (hroom : d + (encodeByte c).length ≤ dst.length) :
    ∃ dst', appendUtf8FromNativeByte c dst d = (dst', d + (encodeByte c).length) ∧
      dst'.length = dst.length ∧
      dst'.take (d + (encodeByte c).length) = dst.take d ++ encodeByte c := by
  rw [appendUtf8FromNativeByte]
  cases hc : isInvariant c with
  | true =>
    rw [encodeByte_invariant hc, List.length_singleton] at hroom ⊢
    exact ⟨dst.set d c, rfl, List.length_set, take_set_succ (by omega) c⟩
  | false =>
    rw [encodeByte_variant hc] at hroom ⊢
    have hlength : [eightBitHi c, eightBitLo c].length = 2 := rfl
    rw [hlength] at hroom ⊢
    refine ⟨(dst.set d (eightBitHi c)).set (d + 1) (eightBitLo c), rfl, ?_, ?_⟩
    · rw [List.length_set, List.length_set]
    · rw [show d + 2 = d + 1 + 1 from rfl, take_set_succ (by rw [List.length_set]; omega),
        take_set_succ (by omega), List.append_assoc]
      rfl

theorem upgradeLoop_eq {send n s : Nat} (hfuel : send ≤ s + n)
    (hroom : d + (upgrade (stretch block s send)).length ≤ dst.length) :
    ∃ dst', upgradeLoop block send n s dst d =
        (dst', d + (upgrade (stretch block s send)).length) ∧ dst'.length = dst.length ∧
      dst'.take (d + (upgrade (stretch block s send)).length) =
        dst.take d ++ upgrade (stretch block s send) := by
  induction n generalizing dst s d with
  | zero =>
    rw [stretch_eq_nil (show send ≤ s from hfuel)]
    exact ⟨dst, rfl, rfl, (List.append_nil _).symm⟩
  | succ n ih =>
    rw [upgradeLoop]
    by_cases hs : s < send
    · rw [stretch_cons hs, upgrade_cons, List.length_append] at hroom ⊢
      obtain ⟨dst₁, happend, hlength₁, htake₁⟩ := appendUtf8FromNativeByte_eq
        (c := byteAt block s) (show d + _ ≤ dst.length by omega)
      obtain ⟨dst₂, hrest, hlength₂, htake₂⟩ := ih (show send ≤ s + 1 + n by omega)
        (show d + (encodeByte (byteAt block s)).length + _ ≤ dst₁.length by omega)
      rw [if_pos hs, happend]
      dsimp only
      rw [hrest, ← Nat.add_assoc]
      refine ⟨dst₂, rfl, hlength₂.trans hlength₁, ?_⟩
      rw [htake₂, htake₁, List.append_assoc]
    · rw [if_neg hs, stretch_eq_nil (Nat.not_lt.1 hs)]
      exact ⟨dst, rfl, rfl, (List.append_nil _).symm⟩

theorem countOn_eq_countP (p : U8 → Bool) (block : List U8) (x e : Nat) :
    countOn (fun i => p (byteAt block i)) x e = (stretch block x e).countP p := by
  rw [countOn, stretch, List.countP_map]
  rfl

theorem upgrade_invariant (h : ∀ c ∈ bytes, isInvariant c = true) :
    upgrade bytes = bytes := by
  induction bytes with
  | nil => rfl
  | cons c bytes ih =>
    rw [upgrade_cons, encodeByte_invariant (h c List.mem_cons_self),
      ih fun c' hc' => h c' (List.mem_cons_of_mem _ hc')]
    rfl

theorem upgrade_append (bytes bytes' : List U8) :
    upgrade (bytes ++ bytes') = upgrade bytes ++ upgrade bytes' := List.flatMap_append

theorem invariant_stretch (h : InvariantOn block x e) :
    ∀ c ∈ stretch block x e, isInvariant c = true := by
  intro c hc
  rw [stretch, List.mem_map] at hc
  obtain ⟨i, hi, hc⟩ := hc
  rw [List.mem_range'_1] at hi
  rw [← hc]
  exact h i hi.1 (by omega)

theorem bytesToUtf8FreeMe_eq (freeMe : Bool) (junk : U8) (address : Nat)
    (hlen : len ≤ block.length) :
    let up := bytesToUtf8FreeMe freeMe junk address block len
    up.2 = (upgrade (block.take len)).length ∧ up.2 ≤ (up.1.getD block).length ∧
      (up.1.getD block).take up.2 = upgrade (block.take len) ∧
      ∀ new, up.1 = some new → new[up.2]? = some 0 ∧ new.length = up.2 + 1 := by
  have hcount : variantUnderUtf8Count address block len =
      (block.take len).countP fun c => !isInvariant c := by
    rw [variantUnderUtf8Count_eq, variantsOn, countOn_eq_countP (fun c => !isInvariant c),
      stretch_zero hlen]
  have hlength := length_upgrade (block.take len)
  rw [List.length_take, Nat.min_eq_left hlen, ← hcount] at hlength
  dsimp only
  rw [bytesToUtf8FreeMe]
  dsimp only
  split
  · rename_i hsame
    have hnone : upgrade (block.take len) = block.take len := by
      apply upgrade_invariant
      intro c hc
      have hzero := hcount.symm.trans hsame.2
      rw [List.countP_eq_zero] at hzero
      cases hinv : isInvariant c with
      | true => rfl
      | false => exact absurd (by rw [hinv]; rfl) (hzero c hc)
    refine ⟨?_, hlen, hnone.symm, fun new hnew => by cases hnew⟩
    rw [hlength, hsame.2]
    rfl
  · have hroom : 0 + (upgrade (stretch block 0 len)).length ≤
        (List.replicate (len + variantUnderUtf8Count address block len + 1) junk).length := by
      rw [stretch_zero hlen, List.length_replicate, hlength]
      omega
    obtain ⟨dst, hrun, hdst, htake⟩ := upgradeLoop_eq (n := len) (by omega) hroom
    rw [stretch_zero hlen, Nat.zero_add] at hrun htake
    rw [List.length_replicate] at hdst
    rw [hrun]
    dsimp only [Option.getD_some]
    refine ⟨rfl, ?_, ?_, ?_⟩
    · rw [List.length_set, hdst]
      omega
    · rw [List.take_set_of_le (Nat.le_refl _), htake]
      rfl
    · intro new hnew
      cases hnew
      rw [List.getElem?_set_self (by omega), List.length_set, hdst, hlength]
      exact ⟨rfl, rfl⟩

theorem upgrade_iff_of_variantAt (hlen : len ≤ block.length)
    (hv : VariantAt block 0 len v) :
    (∃ bytes, block.take len = upgrade bytes) ↔ ∃ bytes, stretch block v len = upgrade bytes := by
  obtain ⟨-, hvlen, hvariant, hbefore⟩ := hv
  rw [← stretch_zero hlen]
  constructor
  · intro h
    obtain ⟨bytes, hbytes⟩ := h
    rcases upgrade_boundary hbytes (Nat.zero_le v) (Nat.le_of_lt hvlen) with
      hrest | ⟨hpos, hstart, -⟩
    · exact hrest
    · have hinv := hbefore (v - 1) (Nat.zero_le _) (by omega)
      rw [((classes_disjoint _).1 hinv).2] at hstart
      cases hstart
  · intro h
    obtain ⟨bytes, hbytes⟩ := h
    refine ⟨stretch block 0 v ++ bytes, ?_⟩
    rw [stretch_append block (Nat.zero_le v) (Nat.le_of_lt hvlen), hbytes, upgrade_append,
      upgrade_invariant (invariant_stretch hbefore)]

theorem encodeByte_inj {c' : U8} {l l' : List U8} (h : encodeByte c ++ l = encodeByte c' ++ l') :
    c = c' ∧ l = l' := by
  cases hc : isInvariant c with
  | true =>
    rw [encodeByte_invariant hc] at h
    cases hc' : isInvariant c' with
    | true =>
      rw [encodeByte_invariant hc'] at h
      exact List.cons.inj h
    | false =>
      rw [encodeByte_variant hc'] at h
      rw [(List.cons.inj h).1, (eightBit_bytes hc').1] at hc
      cases hc
  | false =>
    rw [encodeByte_variant hc] at h
    cases hc' : isInvariant c' with
    | true =>
      rw [encodeByte_invariant hc'] at h
      rw [← (List.cons.inj h).1, (eightBit_bytes hc).1] at hc'
      cases hc'
    | false =>
      rw [encodeByte_variant hc'] at h
      obtain ⟨hhi, htail⟩ := List.cons.inj h
      obtain ⟨hlo, hrest⟩ := List.cons.inj htail
      refine ⟨?_, hrest⟩
      rw [← (eightBit_bytes hc).2.2.2.2.2, hhi, hlo, (eightBit_bytes hc').2.2.2.2.2]

theorem upgrade_injective {bytes' : List U8} (h : upgrade bytes = upgrade bytes') :
    bytes = bytes' := by
  induction bytes generalizing bytes' with
  | nil =>
    cases bytes' with
    | nil => rfl
    | cons c' bytes' =>
      have hlength := congrArg List.length h
      rw [length_upgrade, length_upgrade, List.length_cons, List.length_nil, List.countP_nil]
        at hlength
      omega
  | cons c bytes ih =>
    cases bytes' with
    | nil =>
      have hlength := congrArg List.length h
      rw [length_upgrade, length_upgrade, List.length_cons, List.length_nil, List.countP_nil]
        at hlength
      omega
    | cons c' bytes' =>
      rw [upgrade_cons, upgrade_cons] at h
      obtain ⟨hc, hrest⟩ := encodeByte_inj h
      rw [hc, ih hrest]

theorem startsOn_of_upgrade
    (h : stretch block x e = upgrade bytes) : e - x = bytes.length + startsOn block x e := by
  have hcount : ∀ bytes : List U8, (upgrade bytes).countP isDowngradeableStart =
      bytes.countP fun c => !isInvariant c := by
    intro bytes
    induction bytes with
    | nil => rfl
    | cons c bytes ih =>
      rw [upgrade_cons, List.countP_append, ih, List.countP_cons]
      cases hc : isInvariant c with
      | true =>
        rw [encodeByte_invariant hc, List.countP_singleton, ((classes_disjoint c).1 hc).2]
        simp
      | false =>
        obtain ⟨-, hdown, -, -, hlo, -⟩ := eightBit_bytes hc
        rw [encodeByte_variant hc, List.countP_cons, List.countP_singleton, hdown,
          (classes_disjoint _).2 hlo]
        simp
        omega
  rw [startsOn, countOn_eq_countP, h, hcount, ← length_upgrade, ← h, length_stretch]

theorem startsOn_pos (hx : x < e)
    (h : stretch block x e = upgrade bytes) (hvariant : isInvariant (byteAt block x) = false) :
    0 < startsOn block x e := by
  rw [stretch_cons hx] at h
  cases bytes with
  | nil => cases h
  | cons c bytes =>
    rw [upgrade_cons] at h
    cases hc : isInvariant c with
    | true =>
      rw [encodeByte_invariant hc] at h
      rw [(List.cons.inj h).1, hc] at hvariant
      cases hvariant
    | false =>
      rw [encodeByte_variant hc] at h
      rw [startsOn_split block (Nat.le_add_right x 1) hx, startsOn_one, (List.cons.inj h).1,
        (eightBit_bytes hc).2.1, Bool.toNat_true]
      omega

def passesFirst (address : Nat) (block : List U8) (len : Nat) : Bool :=
  match isUtf8InvariantStringLoc address block len with
  | none => true
  | some firstVariant => (firstPass address block len firstVariant).isSome

def isAscii (block : List U8) (len : Nat) : Bool := (block.take len).all isInvariant

/-- What a call of `utf8_to_bytes_` promises. -/
structure Downgraded (resultAs : ResultAs) (address : Nat) (block : List U8) (len : Nat)
    (r : Outcome) : Prop where
  converts : r.converted = true ↔ ∃ bytes, block.take len = upgrade bytes
  result : ∀ bytes, block.take len = upgrade bytes →
    r.length = bytes.length ∧ r.length ≤ r.memory.length ∧ r.memory.take r.length = bytes
  terminated : r.converted = true → isAscii block len = false → r.memory[r.length]? = some 0
  ascii : isAscii block len = true → r.input = block ∧ r.moved = none ∧ r.length = len
  refused : r.converted = false → r.moved = none ∧ r.length = len
  untouched : resultAs ≠ .overwrite ∨ passesFirst address block len = false → r.input = block

theorem isAscii_iff (hlen : len ≤ block.length) :
    isAscii block len = true ↔ InvariantOn block 0 len := by
  rw [isAscii, List.all_eq_true, ← stretch_zero hlen]
  constructor
  · intro h i _ hi
    apply h
    rw [stretch]
    exact List.mem_map_of_mem (List.mem_range'_1.2 ⟨Nat.zero_le i, by omega⟩)
  · exact invariant_stretch

theorem not_isAscii_of_variantAt (hlen : len ≤ block.length)
    (hv : VariantAt block 0 len v) : isAscii block len = false := by
  rw [Bool.eq_false_iff]
  intro hascii
  have hinv := (isAscii_iff hlen).1 hascii v (Nat.zero_le v) hv.2.1
  rw [hv.2.2.1] at hinv
  cases hinv

theorem utf8ToBytes_ascii (resultAs : ResultAs) (address : Nat)
    (hlen : len ≤ block.length) (h : InvariantOn block 0 len) :
    Downgraded resultAs address block len ⟨true, block, none, len, false, false⟩ := by
  have hself : block.take len = upgrade (block.take len) := by
    rw [← stretch_zero hlen, upgrade_invariant (invariant_stretch h)]
  constructor
  · exact iff_of_true rfl ⟨_, hself⟩
  · intro bytes hbytes
    have hsame := upgrade_injective (hself.symm.trans hbytes)
    subst hsame
    exact ⟨(List.length_take_of_le hlen).symm, hlen, rfl⟩
  · intro _ hnot
    rw [(isAscii_iff hlen).2 h] at hnot
    cases hnot
  · exact fun _ => ⟨rfl, rfl, rfl⟩
  · intro hfalse
    cases hfalse
  · exact fun _ => rfl

theorem Downgraded.of_refused (hlen : len ≤ block.length) (hv : VariantAt block 0 len v)
    (hbad : ¬ ∃ bytes, stretch block v len = upgrade bytes)
    (hinput : resultAs ≠ .overwrite ∨ passesFirst address block len = false → input = block) :
    Downgraded resultAs address block len ⟨false, input, none, len, false, false⟩ := by
  have hbad' : ¬ ∃ bytes, block.take len = upgrade bytes :=
    fun h => hbad ((upgrade_iff_of_variantAt hlen hv).1 h)
  constructor
  · exact iff_of_false Bool.false_ne_true hbad'
  · exact fun bytes hbytes => absurd ⟨bytes, hbytes⟩ hbad'
  · intro hfalse
    cases hfalse
  · intro hascii
    rw [not_isAscii_of_variantAt hlen hv] at hascii
    cases hascii
  · exact fun _ => ⟨rfl, rfl⟩
  · exact hinput

theorem Downgraded.of_done
    {moved : Option (List U8)} {freeMe saveFree : Bool}
    (hlen : len ≤ block.length) (hv : VariantAt block 0 len v)
    (hbytes : stretch block v len = upgrade bytes)
    (hroom : v + bytes.length < dst.length)
    (htake : dst.take (v + bytes.length) = block.take v ++ bytes)
    (hmemory : moved.getD input = dst.set (v + bytes.length) 0)
    (hinput : resultAs ≠ .overwrite ∨ passesFirst address block len = false → input = block) :
    Downgraded resultAs address block len
      ⟨true, input, moved, v + bytes.length, freeMe, saveFree⟩ := by
  have hbefore : block.take v = stretch block 0 v := (stretch_zero (by
    have := hv.2.1
    omega)).symm
  have hwhole : block.take len = upgrade (block.take v ++ bytes) := by
    rw [← stretch_zero hlen, stretch_append block (Nat.zero_le v) (Nat.le_of_lt hv.2.1), hbytes,
      upgrade_append, hbefore, upgrade_invariant (invariant_stretch hv.2.2.2)]
  have hlength : (block.take v ++ bytes).length = v + bytes.length := by
    rw [List.length_append, hbefore, length_stretch, Nat.sub_zero]
  constructor
  · exact iff_of_true rfl ⟨_, hwhole⟩
  · intro bytes' hbytes'
    have hsame := upgrade_injective (hwhole.symm.trans hbytes')
    subst hsame
    refine ⟨hlength.symm, ?_, ?_⟩
    · show v + bytes.length ≤ (moved.getD input).length
      rw [hmemory, List.length_set]
      omega
    · show (moved.getD input).take (v + bytes.length) = _
      rw [hmemory, List.take_set_of_le (Nat.le_refl _), htake]
  · intro _ _
    show (moved.getD input)[v + bytes.length]? = some 0
    rw [hmemory, List.getElem?_set_self hroom]
  · intro hascii
    rw [not_isAscii_of_variantAt hlen hv] at hascii
    cases hascii
  · intro hfalse
    cases hfalse
  · exact hinput

theorem utf8ToBytes_downgraded (resultAs : ResultAs) (junk : U8) (address : Nat)
    (hlen : len ≤ block.length) :
    Downgraded resultAs address block len (utf8ToBytes resultAs junk address block len) := by
  have hscan := isUtf8InvariantStringLoc_scans address block len
  rw [utf8ToBytes]
  cases hloc : isUtf8InvariantStringLoc address block len with
  | none =>
    rw [hloc] at hscan
    exact utf8ToBytes_ascii resultAs address hlen hscan
  | some v =>
    rw [hloc] at hscan
    have hv : VariantAt block 0 len v := hscan
    have hvlen := hv.2.1
    dsimp only
    cases hfirst : firstPass address block len v with
    | none =>
      refine Downgraded.of_refused hlen hv (fun h => ?_) fun _ => rfl
      obtain ⟨bytes, hbytes⟩ := h
      have hsome : (firstPass address block len v).isSome := firstPass_isSome hbytes
      rw [hfirst] at hsome
      cases hsome
    | some count =>
      obtain ⟨hcount, hstarts⟩ := firstPass_some hfirst
      have hpasses : passesFirst address block len = true := by
        rw [passesFirst, hloc]
        dsimp only
        rw [hfirst]
        rfl
      dsimp only
      by_cases hover : resultAs = .overwrite
      · have hinput (input : List U8) : resultAs ≠ .overwrite ∨
            passesFirst address block len = false → input = block := by
          intro h
          rcases h with hne | hfalse
          · exact absurd hover hne
          · rw [hpasses] at hfalse
            cases hfalse
        have hunread : Unread true block block v v := ⟨fun _ _ => rfl, fun _ => Nat.le_refl v⟩
        rw [if_pos hover]
        cases hconvert : convert true block len len block v v with
        | cantConvert dst s d =>
          refine Downgraded.of_refused hlen hv (fun h => ?_) (hinput _)
          obtain ⟨bytes, hbytes⟩ := h
          have hlength := startsOn_of_upgrade hbytes
          obtain ⟨dst', hdone, -, -⟩ := convert_done (n := len) (by omega) hunread hbytes (by omega)
          rw [hconvert] at hdone
          cases hdone
        | done dst d =>
          obtain ⟨bytes, hbytes⟩ := upgrade_of_convert (by omega) hunread hstarts hconvert
          have hlength := startsOn_of_upgrade hbytes
          obtain ⟨dst', hdone, hdst, htake⟩ := convert_done (n := len) (by omega) hunread hbytes (by omega)
          rw [hconvert] at hdone
          cases hdone
          have hpos := startsOn_pos hvlen hbytes hv.2.2.1
          exact Downgraded.of_done hlen hv hbytes (by omega) htake rfl (hinput _)
      · have hunread : Unread false block
            (block.take v ++ (List.replicate (len + 1 - count) junk).drop v) v v :=
          ⟨fun _ _ => rfl, fun hfalse => by cases hfalse⟩
        rw [if_neg hover]
        cases hconvert : convert false block len len
            (block.take v ++ (List.replicate (len + 1 - count) junk).drop v) v v with
        | cantConvert dst s d =>
          refine Downgraded.of_refused hlen hv (fun h => ?_) fun _ => rfl
          obtain ⟨bytes, hbytes⟩ := h
          have hlength := startsOn_of_upgrade hbytes
          obtain ⟨dst', hdone, -, -⟩ := convert_done (n := len) (by omega) hunread hbytes (by
            rw [List.length_append, List.length_take, List.length_drop, List.length_replicate]
            omega)
          rw [hconvert] at hdone
          cases hdone
        | done dst d =>
          obtain ⟨bytes, hbytes⟩ := upgrade_of_convert (by omega) hunread hstarts hconvert
          have hlength := startsOn_of_upgrade hbytes
          have hnew : (block.take v ++ (List.replicate (len + 1 - count) junk).drop v).length =
              len + 1 - count := by
            rw [List.length_append, List.length_take, List.length_drop, List.length_replicate]
            omega
          obtain ⟨dst', hdone, hdst, htake⟩ := convert_done (n := len) (by omega) hunread hbytes
            (by omega)
          have hfront : (block.take v ++ (List.replicate (len + 1 - count) junk).drop v).take v =
              block.take v := by
            rw [List.take_append_of_le_length (by rw [List.length_take]; omega), List.take_take,
              Nat.min_self]
          rw [hfront] at htake
          rw [hconvert] at hdone
          cases hdone
          exact Downgraded.of_done hlen hv hbytes (by omega) htake rfl fun _ => rfl

/-- Downgrading is all or nothing, and inverts upgrading. What the input holds after the second pass
has refused a string in place is left open. -/
theorem utf8ToBytes_all_or_nothing (resultAs : ResultAs) (junk : U8) (address : Nat)
    (block : List U8) (len : Nat) (hlen : len ≤ block.length) :
    Downgraded resultAs address block len (utf8ToBytes resultAs junk address block len) ∧
      ∀ freeMe : Bool, ∀ junk' : U8, ∀ address' : Nat,
        let up := bytesToUtf8FreeMe freeMe junk' address' block len
        let down := utf8ToBytes resultAs junk address (up.1.getD block) up.2
        down.converted = true ∧ down.length = len ∧
          down.memory.take down.length = block.take len := by
  refine ⟨utf8ToBytes_downgraded resultAs junk address hlen, ?_⟩
  intro freeMe junk' address'
  obtain ⟨-, hle, htake, -⟩ := bytesToUtf8FreeMe_eq freeMe junk' address' hlen
  have hdown := utf8ToBytes_downgraded resultAs junk address hle
  obtain ⟨hlength, -, hbytes⟩ := hdown.result _ htake
  exact ⟨hdown.converts.2 ⟨_, htake⟩, hlength.trans (List.length_take_of_le hlen), hbytes⟩

/-- Forty one bytes: three characters of two bytes, a start byte without its continuation, and
letters. -/
def brokenLate : List U8 :=
  [0xC2, 0xA9, 0xC2, 0xA9, 0xC2, 0xA9, 0xC2] ++ List.replicate 34 0x61

theorem utf8ToBytes_all_or_nothing_pair :
    2 ≤ ([0xC3, 0xA9] : List U8).length ∧
      (utf8ToBytes .overwrite 0 0 [0xC3, 0xA9] 2).memory.take
        (utf8ToBytes .overwrite 0 0 [0xC3, 0xA9] 2).length = [0xE9] :=
  ⟨by decide, ((utf8ToBytes_all_or_nothing .overwrite 0 0 [0xC3, 0xA9] 2 (by decide)).1.result [0xE9]
    (by decide)).2.2⟩

/-- ASCII gets no NUL after it, and the undoing of a second pass leaves other bytes. -/
theorem utf8ToBytes_leaves :
    utf8ToBytes .overwrite 0 0 [0x61, 0x62] 1 = ⟨true, [0x61, 0x62], none, 1, false, false⟩ ∧
      (utf8ToBytes .overwrite 0 0 (brokenLate ++ [0]) 41).converted = false ∧
      (utf8ToBytes .overwrite 0 0 (brokenLate ++ [0]) 41).input.take 4 = [0xC2, 0xA9, 0xA9, 0xA9] ∧
      brokenLate.take 4 = [0xC2, 0xA9, 0xC2, 0xA9] := by
  refine ⟨by decide +kernel, by decide +kernel, by decide +kernel, by decide⟩

end XPerl.Utf8
