import XPerl.Hash.Index

/-! Key arguments, and their conversion to the form in which keys are stored. -/

namespace XPerl.Hash

/-- utf8_to_bytes: UTF-8 text with all characters below 256 as one byte a character. -/
def utf8ToBytes : Octets → Option Octets
  | [] => some []
  | b :: rest =>
    if b < 0x80 then (utf8ToBytes rest).map (b :: ·)
    else
      match rest with
      | [] => none
      | c :: rest' =>
        if (b = 0xC2 ∨ b = 0xC3) ∧ 0x80 ≤ c ∧ c < 0xC0 then
          (utf8ToBytes rest').map (((b &&& 0x03) <<< 6 ||| (c &&& 0x3F)) :: ·)
        else none

/-- Flag bits that a caller passes with a plain key. -/
structure KeyFlags where
  utf8 : Bool
  wasUtf8 : Bool
  notShared : Bool
  freeKey : Bool
  keyCanonical : Bool
  deriving DecidableEq, Repr

def KeyFlags.zero : KeyFlags := ⟨false, false, false, false, false⟩

/-- A key as a string with flags, as an ordinary scalar, or as a scalar that shares a HEK. -/
inductive Key where
  | pv (octets : Octets) (flags : KeyFlags)
  | sv (octets : Octets) (utf8 : Bool)
  | shared (hek : HEK)
  deriving DecidableEq, Repr

/-- A key with its precomputed hash, where zero asks for the hash to be computed. -/
structure KeyArg where
  key : Key
  hash : UInt32
  deriving DecidableEq, Repr

/-- A byte string, with its hash to be computed. -/
def KeyArg.bytes (octets : Octets) : KeyArg := ⟨.pv octets .zero, 0⟩

/-- Key, length, flags and hash as a lookup uses them. -/
structure Query where
  octets : Octets
  utf8 : Bool
  wasUtf8 : Bool
  freeKey : Bool
  keyCanonical : Bool
  hash : UInt32
  deriving DecidableEq, Repr

def Query.id (q : Query) : KeyId := ⟨q.hash, q.octets, q.utf8⟩

def Query.HashOk (cfg : Config) (q : Query) : Prop := q.hash = cfg.perlHash q.octets

def Key.isUtf8 : Key → Bool
  | .pv _ flags => flags.utf8
  | .sv _ utf8 => utf8
  | .shared hek => hek.utf8

def KeyArg.raw (k : KeyArg) : Query :=
  match k.key with
  | .pv octets flags =>
    ⟨octets, flags.utf8, flags.wasUtf8, flags.freeKey, flags.keyCanonical, k.hash⟩
  | .sv octets _ => ⟨octets, false, false, false, false, k.hash⟩
  | .shared hek => ⟨hek.key, hek.utf8, hek.wasUtf8, false, true, k.hash⟩

/-- The hash that a lookup uses: that of a shared HEK, the precomputed one, or a new one. -/
def Query.withHash (cfg : Config) (k : KeyArg) (q : Query) : Query :=
  match k.key with
  | .shared hek => { q with hash := hek.hash }
  | _ => if q.hash = 0 then { q with hash := cfg.perlHash q.octets } else q

@[simp] theorem withHash_octets (cfg : Config) (k : KeyArg) (q : Query) :
    (q.withHash cfg k).octets = q.octets := by
  unfold Query.withHash
  cases k.key <;> first | rfl | exact apply_ite Query.octets _ _ _ |>.trans (ite_self _)

@[simp] theorem withHash_utf8 (cfg : Config) (k : KeyArg) (q : Query) :
    (q.withHash cfg k).utf8 = q.utf8 := by
  unfold Query.withHash
  cases k.key <;> first | rfl | exact apply_ite Query.utf8 _ _ _ |>.trans (ite_self _)

/-- Conversion of a UTF-8 key to bytes in hv_common, where it can be done. -/
def Query.downgrade (q : Query) (isUtf8 : Bool) : Query :=
  if isUtf8 && !q.keyCanonical then
    match utf8ToBytes q.octets with
    | none => { q with utf8 := true }
    | some bytes =>
      let native := { q with octets := bytes, utf8 := false, wasUtf8 := true }
      -- a key kept by the caller is copied when its octets change, and only then is the
      -- caller's hash dropped
      if q.freeKey || decide (bytes = q.octets) then native
      else { native with freeKey := true, hash := 0 }
  else q

def commonQuery (cfg : Config) (k : KeyArg) : Query :=
  (k.raw.downgrade k.key.isUtf8).withHash cfg k

/-- Key conversion of S_hv_delete_common. It keeps the caller's hash. -/
def deleteQuery (cfg : Config) (k : KeyArg) : Query :=
  let q := { k.raw with utf8 := k.raw.utf8 || k.key.isUtf8 }
  let q' :=
    if k.key.isUtf8 && !q.keyCanonical then
      match utf8ToBytes q.octets with
      | none => { q with utf8 := true }
      | some bytes =>
        let native := { q with octets := bytes, utf8 := false }
        if bytes = q.octets then native else { native with wasUtf8 := true, freeKey := true }
    else q
  q'.withHash cfg k

theorem commonQuery_shared_id (cfg : Config) (hek : HEK) (hash : UInt32) :
    (commonQuery cfg ⟨.shared hek, hash⟩).id = hek.id := by
  simp [commonQuery, Query.downgrade, KeyArg.raw, Query.withHash, Query.id, HEK.id]

def Query.again (q : Query) (key : Key) : KeyArg :=
  match key with
  | .pv _ _ => ⟨.pv q.octets ⟨q.utf8, q.wasUtf8, false, q.freeKey, q.keyCanonical⟩, q.hash⟩
  | key => ⟨key, q.hash⟩

def Query.fill (cfg : Config) (q : Query) : Query :=
  if q.hash = 0 then { q with hash := cfg.perlHash q.octets } else q

theorem fill_fill (cfg : Config) (q : Query) : (q.fill cfg).fill cfg = q.fill cfg := by
  unfold Query.fill
  split_ifs <;> simp_all

theorem fill_eq (cfg : Config) (q : Query) : ∃ h, q.fill cfg = { q with hash := h } := by
  unfold Query.fill
  split_ifs
  · exact ⟨_, rfl⟩
  · exact ⟨q.hash, rfl⟩

theorem downgrade_hash (q : Query) (isUtf8 : Bool) :
    (∀ h, ({ q with hash := h } : Query).downgrade isUtf8 = { q.downgrade isUtf8 with hash := h }) ∨
      ∀ h, ({ q with hash := h } : Query).downgrade isUtf8 = q.downgrade isUtf8 := by
  unfold Query.downgrade
  by_cases hc : (isUtf8 && !q.keyCanonical) = true
  · obtain ⟨r, hr⟩ : ∃ r, utf8ToBytes q.octets = r := ⟨_, rfl⟩
    cases r with
    | none => simp [hc, hr]
    | some bytes =>
      by_cases hf : (q.freeKey || decide (bytes = q.octets)) = true <;> simp [hc, hr, hf]
  · simp [hc]

theorem downgrade_downgrade (q : Query) (isUtf8 : Bool) (hash : UInt32) (hq : q.utf8 = isUtf8) :
    ({ q.downgrade isUtf8 with hash := hash } : Query).downgrade (q.downgrade isUtf8).utf8 =
      { q.downgrade isUtf8 with hash := hash } := by
  unfold Query.downgrade
  by_cases hc : (isUtf8 && !q.keyCanonical) = true
  · obtain ⟨r, hr⟩ : ∃ r, utf8ToBytes q.octets = r := ⟨_, rfl⟩
    cases r with
    | none => simp_all
    | some bytes => by_cases hf : (q.freeKey || decide (bytes = q.octets)) = true <;> simp [hc, hr, hf]
  · simp [hc, hq]

theorem commonQuery_again (cfg : Config) (k : KeyArg) :
    commonQuery cfg ((commonQuery cfg k).again k.key) = commonQuery cfg k := by
  obtain ⟨key, hash⟩ := k
  cases key with
  | shared hek =>
    simp [commonQuery, Query.again, KeyArg.raw, Query.withHash, Key.isUtf8, Query.downgrade]
  | pv octets flags =>
    set raw : Query := ⟨octets, flags.utf8, flags.wasUtf8, flags.freeKey, flags.keyCanonical, hash⟩
    have hcq : commonQuery cfg ⟨.pv octets flags, hash⟩ = (raw.downgrade flags.utf8).fill cfg := rfl
    obtain ⟨h, hfill⟩ := fill_eq cfg (raw.downgrade flags.utf8)
    have hagain : commonQuery cfg ((commonQuery cfg ⟨.pv octets flags, hash⟩).again (.pv octets flags)) =
        ((commonQuery cfg ⟨.pv octets flags, hash⟩).downgrade
          (commonQuery cfg ⟨.pv octets flags, hash⟩).utf8).fill cfg := rfl
    have hsame := downgrade_downgrade raw flags.utf8 h rfl
    rw [hagain, hcq]
    rw [← hfill] at hsame
    have hutf8 : ((raw.downgrade flags.utf8).fill cfg).utf8 = (raw.downgrade flags.utf8).utf8 := by
      rw [hfill]
    rw [hutf8, hsame, fill_fill]
  | sv octets utf8 =>
    set raw : Query := ⟨octets, false, false, false, false, hash⟩
    have hcq : commonQuery cfg ⟨.sv octets utf8, hash⟩ = (raw.downgrade utf8).fill cfg := rfl
    have hagain : commonQuery cfg ((commonQuery cfg ⟨.sv octets utf8, hash⟩).again (.sv octets utf8)) =
        (({ raw with hash := ((raw.downgrade utf8).fill cfg).hash } : Query).downgrade utf8).fill cfg :=
      rfl
    rw [hagain, hcq]
    rcases downgrade_hash raw utf8 with hkeep | hdrop
    · obtain ⟨h, hfill⟩ := fill_eq cfg (raw.downgrade utf8)
      have hsame : ({ raw.downgrade utf8 with
          hash := ((raw.downgrade utf8).fill cfg).hash } : Query) = (raw.downgrade utf8).fill cfg := by
        rw [hfill]
      rw [hkeep]
      exact (congrArg (Query.fill cfg) hsame).trans (fill_fill cfg _)
    · rw [hdrop]

end XPerl.Hash
