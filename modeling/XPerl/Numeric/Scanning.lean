import XPerl.Framework.Separated
import XPerl.Numeric.Exact
import XPerl.Numeric.Scan

/-! What `grok_uint_by_base` reads: the longest numeral, and its value. -/

namespace XPerl.Numeric

open XPerl.Framework XPerl.Framework.Separated

variable {NV : Type} {b : Base}

theorem forall_byte {p : UInt8 → Bool} (h : ∀ v : BitVec 8, p ⟨v⟩ = true) (c : UInt8) :
    p c = true :=
  h c.toBitVec

theorem worth_lt (b : Base) (c : UInt8) (h : b.isCC c = true) :
    (xdigitValue c).toNat < b.value.toNat := by
  have hall : ∀ c : UInt8, (!b.isCC c || decide ((xdigitValue c).toNat < b.value.toNat)) = true := by
    refine forall_byte ?_
    cases b <;> decide +kernel
  simpa [h] using hall c

def Base.script (b : Base) (allowUnderscores : Bool) : Script UInt8 where
  digit := b.isCC
  worth c := (xdigitValue c).toNat
  sep := underscore
  allow := allowUnderscores
  base := b.value.toNat
  worth_lt := worth_lt b
  digit_sep := by cases b <;> rfl

theorem base_range (b : Base) : 2 ≤ b.value.toNat ∧ b.value.toNat ≤ 16 := by
  cases b <;> decide

theorem isCC_zero (b : Base) : b.isCC 0x30 = true := by
  cases b <;> rfl

theorem isCC_underscore (b : Base) : b.isCC underscore = false := by
  cases b <;> rfl

variable {accumulated : UInt64} {n : Script UInt8} {v v' : Nat}

theorem accumulate_spec {c : UInt8}
    (h : accumulated.toNat * b.value.toNat + (xdigitValue c).toNat < 2 ^ 64) :
    ∃ next, b.accumulate accumulated c = some next ∧
      next.toNat = accumulated.toNat * b.value.toNat + (xdigitValue c).toNat := by
  refine ⟨_, if_pos h, ?_⟩
  rw [UInt64.toNat_add, UInt64.toNat_mul, Nat.mod_add_mod, Nat.mod_eq_of_lt h]

theorem underscoreValid_eq (b : Base) (allow : Bool) (c : UInt8) (s : List UInt8) :
    underscoreValid b (c :: s) = (b.script allow).starts s := by
  cases s <;> rfl

section Switch

variable {allow : Bool} {flags : ScanFlags} {s s0 : List UInt8}

theorem unrolled_spec (allow : Bool) {accumulated : UInt64} {k : Nat}
    (hacc : accumulated.toNat < 16 ^ k) (hlen : k + s.length ≤ 15) :
    ∃ next t, unrolled b accumulated s = some (next, t) ∧ next.toNat < 16 ^ 15 ∧
      Advances (b.script allow) s accumulated.toNat t next.toNat ∧
      (b.script allow).starts t = false ∧ t.length ≤ s.length := by
  induction s generalizing accumulated k with
  | nil =>
    have hle : (16 : Nat) ^ k ≤ 16 ^ 15 := Nat.pow_le_pow_right (by decide) (by simpa using hlen)
    exact ⟨accumulated, [], rfl, hacc.trans_le hle, Advances.refl _ _, rfl, Nat.le_refl _⟩
  | cons c s ih =>
    rw [List.length_cons] at hlen
    by_cases hc : b.isCC c = true
    · have hbase := base_range b
      have hworth := worth_lt b c hc
      have hnext : accumulated.toNat * b.value.toNat + (xdigitValue c).toNat < 16 ^ (k + 1) := by
        rw [Nat.pow_succ]
        calc accumulated.toNat * b.value.toNat + (xdigitValue c).toNat
            < accumulated.toNat * b.value.toNat + b.value.toNat := by omega
          _ = (accumulated.toNat + 1) * b.value.toNat := by rw [Nat.succ_mul]
          _ ≤ 16 ^ k * 16 := Nat.mul_le_mul hacc hbase.2
      have hword : (16 : Nat) ^ (k + 1) ≤ 2 ^ 64 :=
        (Nat.pow_le_pow_right (by decide) (by omega : k + 1 ≤ 16)).trans (by decide)
      obtain ⟨next, hnextEq, hval⟩ := accumulate_spec (hnext.trans_le hword)
      obtain ⟨last, t, hrun, hlast, hadv, hend, htlen⟩ :=
        ih (by rw [hval]; exact hnext) (by omega : k + 1 + s.length ≤ 15)
      refine ⟨last, t, ?_, hlast, ?_, hend, by rw [List.length_cons]; omega⟩
      · rw [unrolled, if_pos hc, hnextEq]
        exact hrun
      · rw [hval] at hadv
        have hstep : Advances (b.script allow) (c :: s) accumulated.toNat s _ := Advances.digit hc
        exact hstep.trans hadv
    · have hle : (16 : Nat) ^ k ≤ 16 ^ 15 := Nat.pow_le_pow_right (by decide) (by omega)
      refine ⟨accumulated, c :: s, ?_, hacc.trans_le hle, Advances.refl _ _, ?_, Nat.le_refl _⟩
      · rw [unrolled, if_neg hc]
      · exact Bool.not_eq_true _ ▸ hc

def mayStart (flags : ScanFlags) : List UInt8 → Bool
  | [] => true
  | c :: _ => !(flags.allowMedialUnderscoresOnly && c == underscore)

/-- What a jump promises of a text that is read behind `v`: the place where the run goes on, or its
end. -/
def JumpSpec (n : Script UInt8) (s : List UInt8) (v : Nat) : Jump → Prop
  | .redoSwitch t => Advances n s v t 0 ∧ t.length < s.length
  | .loop accumulated t => Advances n s v t accumulated.toNat
  | .doneParse accumulated t => s = n.run s ++ t ∧ accumulated.toNat = n.read v (n.run s)
  | .returned accumulated => s = n.run s ∧ accumulated.toNat = n.read v (n.run s)

theorem JumpSpec.after {s t : List UInt8} {jump : Jump}
    (hadv : Advances n s v t v') (hlen : t.length ≤ s.length) (h : JumpSpec n t v' jump) :
    JumpSpec n s v jump := by
  cases jump with
  | redoSwitch u => exact ⟨hadv.trans h.1, h.2.trans_le hlen⟩
  | loop accumulated u => exact hadv.trans h
  | doneParse accumulated u => exact hadv.ends h.1 h.2
  | returned accumulated =>
    obtain ⟨ht, hacc⟩ := h
    obtain ⟨hs, hread⟩ := hadv.ends (u := []) (by simpa using ht) hacc
    exact ⟨by simpa using hs, hread⟩

theorem room_of_lt {c : UInt8} (h : accumulated.toNat < 16 ^ 15)
    (hc : b.isCC c = true) :
    accumulated.toNat * b.value.toNat + (xdigitValue c).toNat < 2 ^ 64 := by
  have hbase := base_range b
  have hworth := worth_lt b c hc
  calc accumulated.toNat * b.value.toNat + (xdigitValue c).toNat
      < accumulated.toNat * b.value.toNat + b.value.toNat := by omega
    _ = (accumulated.toNat + 1) * b.value.toNat := by rw [Nat.succ_mul]
    _ ≤ 16 ^ 15 * 16 := Nat.mul_le_mul h hbase.2
    _ = 2 ^ 64 := by decide

theorem unexpected_spec (accumulated : UInt64)
    (hend : (b.script flags.underscores).starts s = false)
    (hacc : accumulated.toNat < 16 ^ 15)
    (hstart : s.length = s0.length → mayStart flags s = true) :
    ∃ jump, unexpected b flags s0 accumulated s = some jump ∧
      JumpSpec (b.script flags.underscores) s accumulated.toNat jump := by
  generalize hn : b.script flags.underscores = n at *
  have hstop : n.run s = [] →
      JumpSpec n s accumulated.toNat (.doneParse accumulated s) := by
    intro hrun
    rw [JumpSpec, hrun]
    exact ⟨rfl, rfl⟩
  cases s with
  | nil => exact ⟨.returned accumulated, rfl, rfl, rfl⟩
  | cons c rest =>
    have hsep : n.sep = underscore := by rw [← hn]; rfl
    have hallow : n.allow = flags.underscores := by rw [← hn]; rfl
    have hunder : ¬(c != underscore || !flags.underscores) = true →
        c = n.sep ∧ n.allow = true := by
      intro h
      simp only [Bool.or_eq_true, bne_iff_ne, ne_eq, Bool.not_eq_true', not_or, not_not,
        Bool.not_eq_false] at h
      exact ⟨h.1.trans hsep.symm, hallow.trans h.2⟩
    have hvalidEq : underscoreValid b (c :: rest) = n.starts rest := by
      rw [underscoreValid_eq b flags.underscores, hn]
    unfold unexpected
    dsimp only
    split_ifs with hplain hmedial hvalid hzero
    · refine ⟨_, rfl, hstop (run_eq_nil hend ?_)⟩
      rintro t ht ha
      obtain ⟨rfl, rfl⟩ := List.cons.inj ht
      rw [hallow] at ha
      simp [hsep, ha] at hplain
    · simp only [Bool.and_eq_true, beq_iff_eq] at hmedial
      have hmay := hstart hmedial.1
      simp [mayStart, hmedial.2, (hunder hplain).1, hsep] at hmay
    · refine ⟨_, rfl, hstop (run_eq_nil hend ?_)⟩
      rintro t ht -
      obtain ⟨rfl, rfl⟩ := List.cons.inj ht
      rw [hvalidEq] at hvalid
      simpa using hvalid
    · -- nothing but zeros and underscores so far
      obtain ⟨rfl, ha⟩ := hunder hplain
      have hvalue : accumulated.toNat = 0 := by
        rw [beq_iff_eq] at hzero
        rw [hzero]
        rfl
      rw [hvalidEq, Bool.not_eq_true', Bool.not_eq_false] at hvalid
      refine ⟨_, rfl, ?_, Nat.lt_succ_self _⟩
      rw [hvalue]
      exact Advances.sep ha hvalid
    · obtain ⟨rfl, ha⟩ := hunder hplain
      rw [hvalidEq, Bool.not_eq_true', Bool.not_eq_false] at hvalid
      cases rest with
      | nil => cases hvalid
      | cons d rest =>
        have hd : n.digit d = true := hvalid
        have hcc : b.isCC d = true := by rw [← hn] at hd; exact hd
        obtain ⟨next, hnext, hval⟩ := accumulate_spec (room_of_lt hacc hcc)
        refine ⟨.loop next rest, ?_, ?_⟩
        · dsimp only
          rw [hnext]
          rfl
        · have hdigit : Advances n (d :: rest) accumulated.toNat rest next.toNat := by
            rw [hval]
            subst hn
            exact Advances.digit hcc
          exact (Advances.sep ha hvalid).trans hdigit

theorem advances_zeros (b : Base) (allow : Bool) (s : List UInt8) :
    Advances (b.script allow) s 0 (s.dropWhile (· == 0x30)) 0 := by
  induction s with
  | nil => exact Advances.refl _ _
  | cons c s ih =>
    by_cases hc : c = 0x30
    · subst hc
      have hstep : Advances (b.script allow) (0x30 :: s) 0 s _ := Advances.digit (isCC_zero b)
      have hzero : 0 * (b.script allow).base + (b.script allow).worth 0x30 = 0 := by
        rw [Nat.zero_mul]
        rfl
      rw [hzero] at hstep
      exact hstep.trans ih
    · rw [List.dropWhile_cons_of_neg (by simpa using hc)]
      exact Advances.refl _ _

theorem mayStart_rest {s t s0 : List UInt8}
    (hadv : Advances n s v t v') (hle : s.length ≤ s0.length)
    (hstart : s.length = s0.length → mayStart flags s = true) :
    t.length = s0.length → mayStart flags t = true := by
  intro hlen
  obtain ⟨r, hs, -⟩ := hadv.between
  have hlengths : s.length = r.length + t.length := by rw [hs, List.length_append]
  have hnil : r = [] := List.eq_nil_of_length_eq_zero (by omega)
  rw [hnil, List.nil_append] at hs
  rw [← hs]
  exact hstart (by omega)

theorem unrolled_unexpected (accumulated : UInt64) {k : Nat} (hacc : accumulated.toNat < 16 ^ k)
    (hlen : k + s.length ≤ 15) (hle : s.length ≤ s0.length)
    (hstart : s.length = s0.length → mayStart flags s = true) :
    ∃ jump, (do
        let (accumulated, s) ← unrolled b accumulated s
        unexpected b flags s0 accumulated s) = some jump ∧
      JumpSpec (b.script flags.underscores) s accumulated.toNat jump := by
  obtain ⟨next, t, hrun, hnext, hadv, hend, htlen⟩ :=
    unrolled_spec (b := b) flags.underscores hacc hlen
  obtain ⟨jump, hjump, hspec⟩ :=
    unexpected_spec (b := b) next hend hnext (mayStart_rest hadv hle hstart)
  refine ⟨jump, ?_, hspec.after hadv htlen⟩
  rw [hrun]
  exact hjump

theorem switch_spec (hle : s.length ≤ s0.length)
    (hstart : s.length = s0.length → mayStart flags s = true) :
    ∃ jump, switch b flags s0 s = some jump ∧
      JumpSpec (b.script flags.underscores) s 0 jump := by
  cases s with
  | nil => exact ⟨.returned 0, rfl, rfl, rfl⟩
  | cons c rest =>
    have hother : b.isCC c = false →
        ∃ jump, unexpected b flags s0 0 (c :: rest) = some jump ∧
          JumpSpec (b.script flags.underscores) (c :: rest) 0 jump := fun hc =>
      unexpected_spec 0 hc (by decide) hstart
    unfold switch
    dsimp only
    split_ifs with hlong hzero hc height hc
    · rw [beq_iff_eq] at hzero
      refine ⟨_, rfl, ?_, ?_⟩
      · have hzeros := advances_zeros b flags.underscores (c :: rest)
        rwa [List.dropWhile_cons_of_pos (by simpa using hzero)] at hzeros
      · rw [List.length_cons]
        exact Nat.lt_succ_of_le (List.dropWhile_sublist _).length_le
    · exact hother (by simpa using hc)
    · have hcc : b.isCC c = true := by simpa using hc
      have hstep : Advances (b.script flags.underscores) (c :: rest) 0 rest _ :=
        Advances.digit hcc
      rw [Nat.zero_mul, Nat.zero_add] at hstep
      exact ⟨_, rfl, hstep⟩
    · exact hother (by simpa using hc)
    · have hcc : b.isCC c = true := by simpa using hc
      have hstep : Advances (b.script flags.underscores) (c :: rest) 0 rest _ :=
        Advances.digit hcc
      rw [Nat.zero_mul, Nat.zero_add] at hstep
      have hone : (xdigitValue c).toNat < 16 ^ 1 :=
        (worth_lt b c hcc).trans_le (base_range b).2
      rw [beq_iff_eq, List.length_cons] at height
      rw [List.length_cons] at hle
      have hlen : 1 + rest.length ≤ 15 := by omega
      obtain ⟨jump, hjump, hspec⟩ := unrolled_unexpected (xdigitValue c) hone hlen (Nat.le_of_succ_le hle)
        fun h => absurd h (by omega)
      exact ⟨jump, hjump, hspec.after hstep (Nat.le_succ _)⟩
    · rw [beq_iff_eq] at height
      exact unrolled_unexpected 0 (k := 0) (by decide) (by omega) hle hstart

theorem switches_spec (flags : ScanFlags) {fuel : Nat} (hfuel : s.length < fuel)
    (hle : s.length ≤ s0.length)
    (hstart : s.length = s0.length → mayStart flags s = true) :
    ∃ jump, switches b flags s0 fuel s = some jump ∧ (∀ t, jump ≠ .redoSwitch t) ∧
      JumpSpec (b.script flags.underscores) s 0 jump := by
  induction fuel generalizing s with
  | zero => omega
  | succ fuel ih =>
    obtain ⟨jump, hjump, hspec⟩ := switch_spec (b := b) hle hstart
    rw [switches, hjump]
    cases jump with
    | redoSwitch t =>
      obtain ⟨hadv, hlen⟩ := hspec
      obtain ⟨last, hlast, hne, hlastSpec⟩ := ih (s := t) (by omega) (by omega) (fun h => by omega)
      exact ⟨last, hlast, hne, hlastSpec.after hadv hlen.le⟩
    | loop accumulated t => exact ⟨_, rfl, (by simp), hspec⟩
    | doneParse accumulated t => exact ⟨_, rfl, (by simp), hspec⟩
    | returned accumulated => exact ⟨_, rfl, (by simp), hspec⟩

end Switch

section Loop

variable {s : List UInt8}

def IsLimit (b : Base) (maxDiv : UInt64) : Prop := maxDiv = base16MaxDiv ∨ maxDiv = b.maxDiv

theorem maxDiv_range (b : Base) :
    b.maxDiv.toNat * b.value.toNat < 2 ^ 64 ∧
      2 ^ 64 ≤ (b.maxDiv.toNat + 1) * b.value.toNat + (if b = .ten then 10 else 0) ∧
      base16MaxDiv ≤ b.maxDiv := by
  cases b <;> decide

variable {maxDiv : UInt64} {c : UInt8}

theorem IsLimit.toNat_le (h : IsLimit b maxDiv) :
    maxDiv.toNat ≤ b.maxDiv.toNat := by
  rcases h with rfl | rfl
  · exact UInt64.le_iff_toNat_le.1 (maxDiv_range b).2.2
  · exact Nat.le_refl _

theorem overflows_iff (accumulated : UInt64) (hc : b.isCC c = true) :
    (accumulated ≥ b.maxDiv && (accumulated > b.maxDiv ||
      (b == .ten && xdigitValue c > uvMax - b.maxDiv * b.value))) = true ↔
      2 ^ 64 ≤ accumulated.toNat * b.value.toNat + (xdigitValue c).toNat := by
  have hworth := worth_lt b c hc
  simp only [Bool.and_eq_true, Bool.or_eq_true, decide_eq_true_eq, beq_iff_eq, ge_iff_le, gt_iff_lt,
    UInt64.le_iff_toNat_le, UInt64.lt_iff_toNat_lt]
  cases b with
  | two =>
    have hmax : Base.two.maxDiv.toNat = 2 ^ 63 - 1 := rfl
    have hbase : Base.two.value.toNat = 2 := rfl
    rw [hbase] at hworth ⊢
    simp only [reduceCtorEq, false_and, or_false]
    omega
  | eight =>
    have hmax : Base.eight.maxDiv.toNat = 2 ^ 61 - 1 := rfl
    have hbase : Base.eight.value.toNat = 8 := rfl
    rw [hbase] at hworth ⊢
    simp only [reduceCtorEq, false_and, or_false]
    omega
  | ten =>
    have hmax : Base.ten.maxDiv.toNat = 1844674407370955161 := rfl
    have hbase : Base.ten.value.toNat = 10 := rfl
    rw [hbase] at hworth ⊢
    have hrest : (uvMax - Base.ten.maxDiv * Base.ten.value).toNat = 5 := rfl
    simp only [true_and]
    omega
  | sixteen =>
    have hmax : Base.sixteen.maxDiv.toNat = 2 ^ 60 - 1 := rfl
    have hbase : Base.sixteen.value.toNat = 16 := rfl
    rw [hbase] at hworth ⊢
    simp only [reduceCtorEq, false_and, or_false]
    omega

theorem checkOverflow_spec (accumulated : UInt64) (hlimit : IsLimit b maxDiv)
    (hc : b.isCC c = true) :
    ∃ next overflows, checkOverflow b maxDiv accumulated c = (next, overflows) ∧ IsLimit b next ∧
      (overflows = true → next = b.maxDiv) ∧
      (overflows = true ↔ 2 ^ 64 ≤ accumulated.toNat * b.value.toNat + (xdigitValue c).toNat) := by
  have hiff := overflows_iff accumulated hc
  by_cases hge : accumulated ≥ maxDiv
  · have hnext : (if maxDiv == base16MaxDiv then b.maxDiv else maxDiv) = b.maxDiv := by
      rcases hlimit with rfl | rfl
      · rw [if_pos (beq_self_eq_true _)]
      · rw [ite_self]
    refine ⟨b.maxDiv, _, ?_, Or.inr rfl, fun _ => rfl, hiff⟩
    rw [checkOverflow, if_pos hge, hnext]
  · refine ⟨maxDiv, false, ?_, hlimit, (by simp), ?_⟩
    · rw [checkOverflow, if_neg hge]
    · have hlt : accumulated.toNat < b.maxDiv.toNat := by
        rw [ge_iff_le, UInt64.le_iff_toNat_le, Nat.not_le] at hge
        exact hge.trans_le hlimit.toNat_le
      have hnot : ¬accumulated ≥ b.maxDiv := by
        rw [ge_iff_le, UInt64.le_iff_toNat_le]
        omega
      rw [← hiff]
      simp [hnot]

theorem run_stop (allow : Bool) (hc : ¬b.isCC c = true)
    (hunder : ¬(c == underscore && allow && underscoreValid b (c :: s)) = true) :
    (b.script allow).run (c :: s) = [] := by
  refine run_eq_nil (Bool.not_eq_true _ ▸ hc) ?_
  rintro t ht ha
  obtain ⟨rfl, rfl⟩ := List.cons.inj ht
  have ha' : allow = true := ha
  rw [underscoreValid_eq b allow, ha'] at hunder
  simpa [Base.script, ha'] using hunder

def LoopSpec (b : Base) (n : Script UInt8) (s : List UInt8) (v : Nat) : LoopEnd → Prop
  | .done accumulated t => s = n.run s ++ t ∧ accumulated.toNat = n.read v (n.run s)
  | .overflowed maxDiv accumulated t => maxDiv = b.maxDiv ∧ ∃ c rest, t = c :: rest ∧
      n.digit c = true ∧ Advances n s v t accumulated.toNat ∧
      2 ^ 64 ≤ accumulated.toNat * n.base + n.worth c

theorem LoopSpec.after {n : Script UInt8} {s t : List UInt8} {v v' : Nat} {last : LoopEnd}
    (hadv : Advances n s v t v') (h : LoopSpec b n t v' last) : LoopSpec b n s v last := by
  cases last with
  | done accumulated u => exact hadv.ends h.1 h.2
  | overflowed maxDiv accumulated u =>
    obtain ⟨hmax, c, rest, hu, hc, hbetween, hlarge⟩ := h
    exact ⟨hmax, c, rest, hu, hc, hadv.trans hbetween, hlarge⟩

theorem parseLoop_spec (allow : Bool) (accumulated : UInt64) (hlimit : IsLimit b maxDiv) :
    ∃ last, parseLoop b allow maxDiv accumulated s = some last ∧
      LoopSpec b (b.script allow) s accumulated.toNat last := by
  induction s generalizing maxDiv accumulated with
  | nil => exact ⟨_, rfl, rfl, rfl⟩
  | cons c s ih =>
    rw [parseLoop]
    split_ifs with hc hunder
    · obtain ⟨next, overflows, hcheck, hnext, hmax, hiff⟩ :=
        checkOverflow_spec accumulated hlimit hc
      rw [hcheck]
      dsimp only
      split_ifs with hoverflows
      · exact ⟨_, rfl, hmax hoverflows, c, s, rfl, hc, Advances.refl _ _, hiff.1 hoverflows⟩
      · have hroom : accumulated.toNat * b.value.toNat + (xdigitValue c).toNat < 2 ^ 64 := by
          rw [hiff] at hoverflows
          omega
        obtain ⟨value, hvalue, hval⟩ := accumulate_spec hroom
        obtain ⟨last, hlast, hspec⟩ := ih value hnext
        have hstep : Advances (b.script allow) (c :: s) accumulated.toNat s value.toNat := by
          rw [hval]
          exact Advances.digit hc
        refine ⟨last, ?_, hspec.after hstep⟩
        rw [hvalue]
        exact hlast
    · simp only [Bool.and_eq_true, beq_iff_eq] at hunder
      obtain ⟨⟨rfl, ha⟩, hvalid⟩ := hunder
      rw [underscoreValid_eq b allow] at hvalid
      obtain ⟨last, hlast, hspec⟩ := ih accumulated hlimit
      exact ⟨last, hlast, hspec.after (Advances.sep ha hvalid)⟩
    · have hrun := run_stop allow hc hunder
      refine ⟨_, rfl, ?_, ?_⟩
      · rw [hrun, List.nil_append]
      · rw [hrun, read_nil]

end Loop

section Overflow

variable {s : List UInt8}

def breakTie (toRound : ToRound) (c : UInt8) : ToRound :=
  if toRound == .roundToEvenIfHalf && c != 0x30 then .yesRoundUp else toRound

theorem findEnd_cons (b : Base) (allow : Bool) (toRound : ToRound) (c : UInt8) (s : List UInt8) :
    findEnd b allow toRound (c :: s) =
      if b.isCC c || (c == underscore && allow && underscoreValid b (c :: s)) then
        findEnd b allow (breakTie toRound c) s
      else (toRound, c :: s) := by
  have hnext : (if toRound == .roundToEvenIfHalf && c != 0x30 then
      findEnd b allow .yesRoundUp s else findEnd b allow toRound s) =
        findEnd b allow (breakTie toRound c) s := by
    rw [breakTie]
    split_ifs <;> rfl
  have hdisjoint : b.isCC c = true → (c == underscore) = false := by
    intro hc
    rw [beq_eq_false_iff_ne]
    rintro rfl
    rw [isCC_underscore] at hc
    cases hc
  rw [findEnd, hnext]
  cases hc : b.isCC c with
  | true => simp [hdisjoint hc]
  | false =>
    cases c == underscore with
    | true =>
      rw [Bool.true_and, Bool.true_and]
      cases allow && underscoreValid b (c :: s) <;> simp
    | false => simp

theorem findEnd_spec (b : Base) (allow : Bool) (toRound : ToRound) (s : List UInt8) :
    s = (b.script allow).run s ++ (findEnd b allow toRound s).2 ∧
      (findEnd b allow toRound s).1 = ((b.script allow).run s).foldl breakTie toRound := by
  induction s generalizing toRound with
  | nil => exact ⟨rfl, rfl⟩
  | cons c s ih =>
    rw [findEnd_cons]
    split_ifs with hlegal
    · have hrun : (b.script allow).run (c :: s) = c :: (b.script allow).run s := by
        rcases Bool.or_eq_true_iff.1 hlegal with hc | hunder
        · exact run_cons_digit hc
        · simp only [Bool.and_eq_true, beq_iff_eq] at hunder
          obtain ⟨⟨rfl, ha⟩, hvalid⟩ := hunder
          rw [underscoreValid_eq b allow] at hvalid
          exact run_cons_sep ha hvalid
      obtain ⟨hsplit, hround⟩ := ih (breakTie toRound c)
      rw [hrun, List.foldl_cons, List.cons_append, ← hsplit]
      exact ⟨rfl, hround⟩
    · rw [Bool.or_eq_true, not_or] at hlegal
      rw [run_stop allow hlegal.1 hlegal.2]
      exact ⟨rfl, rfl⟩

theorem foldl_breakTie {toRound : ToRound} (h : toRound ≠ .roundToEvenIfHalf) (s : List UInt8) :
    s.foldl breakTie toRound = toRound := by
  induction s with
  | nil => rfl
  | cons c s ih =>
    have hstep : breakTie toRound c = toRound := by
      rw [breakTie, if_neg (by simp [h])]
    rw [List.foldl_cons, hstep, ih]

theorem push_spec (f : Floats NV) (batches : Batches NV) {c : UInt8} (hc : b.isCC c = true) :
    ∃ next, (if batches.thisBatchAccumulated ≤ b.maxDiv && batches.thisBatchFactor ≤ b.maxDiv then
      batches else batches.flush f).push b c = some next := by
  have hworth := worth_lt b c hc
  have hmax := (maxDiv_range b).1
  have hroom : ∀ batches : Batches NV, batches.thisBatchAccumulated ≤ b.maxDiv →
      batches.thisBatchFactor ≤ b.maxDiv → ∃ next, batches.push b c = some next := by
    intro batches hacc hfactor
    rw [UInt64.le_iff_toNat_le] at hacc hfactor
    refine ⟨_, if_pos ⟨?_, ?_⟩⟩
    · calc batches.thisBatchAccumulated.toNat +
            (xdigitValue c).toNat * batches.thisBatchFactor.toNat
          ≤ b.maxDiv.toNat + (xdigitValue c).toNat * b.maxDiv.toNat :=
            Nat.add_le_add hacc (Nat.mul_le_mul_left _ hfactor)
        _ = b.maxDiv.toNat * ((xdigitValue c).toNat + 1) := by
            rw [Nat.mul_succ, Nat.mul_comm, Nat.add_comm]
        _ ≤ b.maxDiv.toNat * b.value.toNat := Nat.mul_le_mul_left _ hworth
        _ < 2 ^ 64 := hmax
    · exact (Nat.mul_le_mul_right _ hfactor).trans_lt hmax
  split_ifs with hfits
  · rw [Bool.and_eq_true, decide_eq_true_eq, decide_eq_true_eq] at hfits
    exact hroom batches hfits.1 hfits.2
  · have hone : (1 : UInt64) ≤ b.maxDiv := by cases b <;> decide
    exact hroom (batches.flush f) (UInt64.zero_le) hone

theorem accumulateBack_spec (f : Floats NV) (batches : Batches NV) {t : List UInt8}
    (ht : ∀ c ∈ t, b.isCC c = true ∨ c = underscore) :
    ∃ last, accumulateBack b f b.maxDiv batches t = some last := by
  induction t generalizing batches with
  | nil => exact ⟨batches, rfl⟩
  | cons c t ih =>
    have hrest : ∀ d ∈ t, b.isCC d = true ∨ d = underscore := fun d hd =>
      ht d (List.mem_cons_of_mem c hd)
    rw [accumulateBack]
    split_ifs with hunder
    · exact ih batches hrest
    · have hc : b.isCC c = true :=
        (ht c List.mem_cons_self).resolve_right (by simpa using hunder)
      obtain ⟨next, hnext⟩ := push_spec f batches hc
      obtain ⟨last, hlast⟩ := ih next hrest
      refine ⟨last, ?_⟩
      dsimp only
      rw [hnext]
      exact hlast

theorem approximate_spec (f : Floats NV) (highOrderBatch : UInt64) {text : List UInt8}
    (ht : ∀ c ∈ text, b.isCC c = true ∨ c = underscore) :
    ∃ nv, approximate b f b.maxDiv highOrderBatch text = some nv := by
  obtain ⟨last, hlast⟩ := accumulateBack_spec f ⟨f.zero, f.ofUV 1, 0, 1⟩
    (t := text.reverse) (fun c hc => ht c (List.mem_reverse.1 hc))
  rw [approximate, hlast]
  exact ⟨_, rfl⟩

end Overflow

/-- The texts that may be read: digits with single underscores between them, or before the first. -/
structure IsNumber (b : Base) (flags : ScanFlags) (t : List UInt8) : Prop where
  numerals : Numerals (b.script flags.underscores) t
  first : mayStart flags t = true

/-- The value of a text, whatever its underscores. -/
def numberValue (b : Base) (t : List UInt8) : Nat := (b.script true).read 0 t

def numberText (b : Base) (flags : ScanFlags) (s : List UInt8) : List UInt8 :=
  if mayStart flags s then (b.script flags.underscores).run s else []

variable {t start : List UInt8} {offset : Nat}

theorem mayStart_congr {flags : ScanFlags} {s : List UInt8} (h : t <+: s) (ht : t ≠ []) :
    mayStart flags t = mayStart flags s := by
  obtain ⟨r, rfl⟩ := h
  cases t with
  | nil => exact absurd rfl ht
  | cons c t => rfl

theorem numberText_prefix (b : Base) (flags : ScanFlags) (s : List UInt8) :
    numberText b flags s <+: s := by
  unfold numberText
  split_ifs
  · exact run_prefix
  · exact List.nil_prefix

theorem isNumber_numberText (b : Base) (flags : ScanFlags) (s : List UInt8) :
    IsNumber b flags (numberText b flags s) := by
  unfold numberText
  split_ifs with h
  · refine ⟨numerals_run, ?_⟩
    by_cases hnil : (b.script flags.underscores).run s = []
    · rw [hnil]
      rfl
    · rwa [mayStart_congr run_prefix hnil]
  · exact ⟨.nil, rfl⟩

theorem prefix_numberText {flags : ScanFlags} {s : List UInt8} (ht : IsNumber b flags t)
    (hpre : t <+: s) : t <+: numberText b flags s := by
  by_cases hnil : t = []
  · rw [hnil]
    exact List.nil_prefix
  · have hstart := ht.first
    rw [mayStart_congr hpre hnil] at hstart
    rw [numberText, if_pos hstart]
    exact prefix_run ht.numerals hpre

/-- How a text overflows: the digits that are kept, the first digit that is dropped, and the rest. -/
structure Overflow (b : Base) (t kept : List UInt8) (c : UInt8) (rest : List UInt8) : Prop where
  split : t = kept ++ c :: rest
  digit : b.isCC c = true
  fits : numberValue b kept < 2 ^ 64
  exceeds : 2 ^ 64 ≤ numberValue b kept * b.value.toNat + (xdigitValue c).toNat

/-- What a scan gives back for the text `t`. -/
inductive Outcome (b : Base) (flags : ScanFlags) (t : List UInt8) (scanned : Scanned NV) : Prop where
  | exact : scanned.value.toNat = numberValue b t → scanned.flags.greaterThanUVMax = false →
      scanned.flags.discardInsteadOfOverflow = false → Outcome b flags t scanned
  | tooLarge {kept : List UInt8} {c : UInt8} {rest : List UInt8} : Overflow b t kept c rest →
      flags.discardInsteadOfOverflow = false → scanned.value = uvMax →
      scanned.flags.greaterThanUVMax = true →
      scanned.flags.discardInsteadOfOverflow = false → Outcome b flags t scanned
  | discarded {kept : List UInt8} {c : UInt8} {rest : List UInt8} : Overflow b t kept c rest →
      flags.discardInsteadOfOverflow = true →
      scanned.value = roundValue (UInt64.ofNat (numberValue b kept))
        (rest.foldl breakTie (firstRounding b (UInt64.ofNat (numberValue b kept)) c)) →
      scanned.flags.greaterThanUVMax = false →
      scanned.flags.discardInsteadOfOverflow = true → Outcome b flags t scanned

theorem Overflow.large {kept rest : List UInt8} {c : UInt8} (h : Overflow b t kept c rest) :
    2 ^ 64 ≤ numberValue b t := by
  have hbase := base_range b
  have hc : (b.script true).digit c = true := h.digit
  have hvalue : numberValue b t = (b.script true).read
      (numberValue b kept * b.value.toNat + (xdigitValue c).toNat) rest := by
    rw [h.split, numberValue, read_append, read_cons_digit hc]
    rfl
  have hpos : 0 < (b.script true).base := by
    have hle : 2 ≤ (b.script true).base := hbase.1
    omega
  rw [hvalue]
  exact h.exceeds.trans (le_read hpos)

theorem switches_stop {flags : ScanFlags} {s : List UInt8} (h : mayStart flags s = false)
    (fuel : Nat) : switches b flags s (fuel + 1) s = some (.doneParse 0 s) := by
  cases s with
  | nil => cases h
  | cons c rest =>
    have hparts : flags.allowMedialUnderscoresOnly = true ∧ c = underscore := by
      simpa [mayStart] using h
    obtain ⟨hmedial, rfl⟩ := hparts
    have hunder : flags.underscores = true := by rw [ScanFlags.underscores, hmedial, Bool.or_true]
    have hjump : unexpected b flags (underscore :: rest) 0 (underscore :: rest) =
        some (.doneParse 0 (underscore :: rest)) := by
      simp [unexpected, hunder, hmedial]
    have hcc := isCC_underscore b
    have hzero : (underscore == 0x30) = false := by decide
    have hunrolled : unrolled b 0 (underscore :: rest) = some (0, underscore :: rest) := by
      rw [unrolled, if_neg (by simp [hcc])]
    have hswitch : switch b flags (underscore :: rest) (underscore :: rest) =
        some (.doneParse 0 (underscore :: rest)) := by
      simp [switch, hcc, hzero, hjump, hunrolled]
    rw [switches, hswitch]
    rfl

variable {u : List UInt8} {accumulated : UInt64}

theorem doneParse_outcome (flags : ScanFlags) (hsplit : start.drop offset = t ++ u)
    (hoffset : offset ≤ start.length)
    (hread : accumulated.toNat = numberValue b t) :
    (doneParse flags start accumulated u : Scanned NV).len = offset + t.length ∧
      Outcome b flags t (doneParse flags start accumulated u : Scanned NV) := by
  have hlen : start.length - offset = t.length + u.length := by
    rw [← List.length_drop, hsplit, List.length_append]
  refine ⟨?_, .exact hread rfl rfl⟩
  change start.length - u.length = offset + t.length
  omega

theorem overflowed_outcome (f : Floats NV) (flags : ScanFlags) (approximation : Bool)
    {s : List UInt8} {c : UInt8}
    (hs : start.drop offset = s) (hoffset : offset ≤ start.length) (hc : b.isCC c = true)
    (hadv : Advances (b.script flags.underscores) s 0 (c :: u) accumulated.toNat)
    (hlarge : 2 ^ 64 ≤ accumulated.toNat * b.value.toNat + (xdigitValue c).toNat) :
    ∃ scanned, overflowed f b flags approximation start b.maxDiv accumulated (c :: u) =
        some scanned ∧
      scanned.len = offset + ((b.script flags.underscores).run s).length ∧
      Outcome b flags ((b.script flags.underscores).run s) scanned := by
  generalize hn : b.script flags.underscores = n at *
  obtain ⟨kept, hsplit, hrun, hread⟩ := hadv.between
  have hdigit : n.digit c = true := by
    rw [← hn]
    exact hc
  rw [run_cons_digit hdigit] at hrun
  have hvalue : numberValue b kept = accumulated.toNat := by
    rw [hread, ← hn]
    rfl
  have hover : Overflow b (n.run s) kept c (n.run u) :=
    ⟨hrun, hc, by rw [hvalue]; exact accumulated.toNat_lt, by rw [hvalue]; exact hlarge⟩
  have hofNat : UInt64.ofNat (numberValue b kept) = accumulated := by
    rw [hvalue, UInt64.ofNat_toNat]
  have hend : ∀ toRound, u = n.run u ++ (findEnd b flags.underscores toRound u).2 ∧
      (findEnd b flags.underscores toRound u).1 = (n.run u).foldl breakTie toRound := fun toRound => by
    rw [← hn]
    exact findEnd_spec b flags.underscores toRound u
  have hlen : ∀ toRound, start.length - (findEnd b flags.underscores toRound u).2.length =
      offset + (n.run s).length := fun toRound => by
    have hstart : start.length - offset = s.length := by rw [← List.length_drop, hs]
    have hu := congrArg List.length (hend toRound).1
    have hlengths := congrArg List.length hsplit
    rw [List.length_append] at hu hlengths
    rw [List.length_cons] at hlengths
    rw [hrun, List.length_append, List.length_cons]
    omega
  unfold overflowed
  dsimp only
  split_ifs with hdiscard happroximation
  · refine ⟨_, rfl, hlen _, .discarded hover hdiscard ?_ rfl rfl⟩
    rw [hofNat, ← (hend _).2]
    rfl
  · have htake : (c :: u).take ((c :: u).length -
        (findEnd b flags.underscores .dontRound u).2.length) = c :: n.run u := by
      have hu := (hend .dontRound).1
      generalize (findEnd b flags.underscores .dontRound u).2 = rest at hu
      have hcons : c :: u = (c :: n.run u) ++ rest := by rw [List.cons_append, ← hu]
      rw [hcons]
      exact List.take_left' (by rw [List.length_append]; omega)
    have htext : ∀ d ∈ c :: n.run u, b.isCC d = true ∨ d = underscore := by
      rintro d hd
      rcases List.mem_cons.1 hd with rfl | hd
      · exact Or.inl hc
      · have hmem := Numerals.mem numerals_run hd
        rwa [← hn] at hmem
    obtain ⟨nv, hnv⟩ := approximate_spec f accumulated htext
    rw [htake, hnv]
    exact ⟨_, rfl, hlen _, .tooLarge hover (Bool.not_eq_true _ ▸ hdiscard) rfl rfl rfl⟩
  · refine ⟨_, rfl, hlen _, .tooLarge hover (Bool.not_eq_true _ ▸ hdiscard) ?_ rfl rfl⟩
    change roundValue uvMax (findEnd b flags.underscores (firstRounding b uvMax c) u).1 = uvMax
    have hfirst : firstRounding b uvMax c = .dontRound := rfl
    rw [(hend _).2, hfirst, foldl_breakTie (by simp)]
    rfl

theorem grokUintByBase_outcome (f : Floats NV) (b : Base) (flags : ScanFlags)
    (approximation : Bool) (hoffset : offset ≤ start.length) :
    ∃ scanned, grokUintByBase f b flags approximation offset start = some scanned ∧
      scanned.len = offset + (numberText b flags (start.drop offset)).length ∧
      Outcome b flags (numberText b flags (start.drop offset)) scanned := by
  generalize hs : start.drop offset = s
  by_cases hstart : mayStart flags s = true
  · rw [numberText, if_pos hstart]
    obtain ⟨jump, hjump, hne, hspec⟩ := switches_spec (b := b) flags
      (Nat.lt_succ_self s.length) (Nat.le_refl s.length) (fun _ => hstart)
    unfold grokUintByBase
    simp only [hs, hjump, Option.bind_eq_bind, Option.bind_some]
    cases jump with
    | redoSwitch t => exact absurd rfl (hne t)
    | returned accumulated =>
      obtain ⟨hall, hread⟩ := hspec
      refine ⟨_, rfl, ?_, .exact hread rfl rfl⟩
      rw [← hall, ← hs, List.length_drop]
      dsimp only
      omega
    | doneParse accumulated u =>
      obtain ⟨hlen, houtcome⟩ :=
        doneParse_outcome flags (hs.trans hspec.1) hoffset hspec.2
      exact ⟨_, rfl, hlen, houtcome⟩
    | loop accumulated u =>
      obtain ⟨last, hlast, hloop⟩ := parseLoop_spec (s := u) flags.underscores accumulated
        (Or.inl rfl : IsLimit b base16MaxDiv)
      have hwhole := hloop.after hspec
      dsimp only
      rw [hlast]
      cases last with
      | done accumulated u =>
        obtain ⟨hlen, houtcome⟩ :=
          doneParse_outcome flags (hs.trans hwhole.1) hoffset hwhole.2
        exact ⟨_, rfl, hlen, houtcome⟩
      | overflowed maxDiv accumulated u =>
        obtain ⟨rfl, c, rest, rfl, hc, hadv, hlarge⟩ := hwhole
        exact overflowed_outcome f flags approximation hs hoffset hc hadv hlarge
  · have hstop : mayStart flags s = false := Bool.not_eq_true _ ▸ hstart
    have hzero : (0 : UInt64).toNat = numberValue b [] := rfl
    obtain ⟨hlen, houtcome⟩ := doneParse_outcome flags (hs.trans (List.nil_append s).symm) hoffset
      hzero
    rw [numberText, if_neg hstart]
    refine ⟨_, ?_, hlen, houtcome⟩
    unfold grokUintByBase
    dsimp only
    rw [hs, switches_stop hstop]
    rfl

/-- A scan from `offset` on succeeds without wrapping around, consumes the longest text of the grammar
and gives back its value, or that it is too large. -/
def ScansExactly (b : Base) (flags : ScanFlags) (offset : Nat) (start : List UInt8)
    (result : Option (Scanned NV)) : Prop :=
  ∃ scanned n, result = some scanned ∧ scanned.len = offset + n ∧
    n ≤ (start.drop offset).length ∧
    IsNumber b flags ((start.drop offset).take n) ∧
    (∀ m ≤ (start.drop offset).length, IsNumber b flags ((start.drop offset).take m) → m ≤ n) ∧
    (numberValue b ((start.drop offset).take n) ≤ uvMax.toNat →
      scanned.value.toNat = numberValue b ((start.drop offset).take n) ∧
      scanned.flags.greaterThanUVMax = false) ∧
    (uvMax.toNat < numberValue b ((start.drop offset).take n) →
      flags.discardInsteadOfOverflow = false →
      scanned.value = uvMax ∧ scanned.flags.greaterThanUVMax = true)

theorem scansExactly (f : Floats NV) (b : Base) (flags : ScanFlags) (approximation : Bool)
    (hoffset : offset ≤ start.length) :
    ScansExactly b flags offset start
      (grokUintByBase f b flags approximation offset start) := by
  obtain ⟨scanned, hscan, hlen, houtcome⟩ :=
    grokUintByBase_outcome f b flags approximation hoffset
  unfold ScansExactly
  generalize start.drop offset = s at hlen houtcome ⊢
  have hpre := numberText_prefix b flags s
  have htake : s.take (numberText b flags s).length = numberText b flags s :=
    (List.prefix_iff_eq_take.1 hpre).symm
  have hmax : uvMax.toNat = 2 ^ 64 - 1 := rfl
  refine ⟨scanned, (numberText b flags s).length, hscan, hlen, hpre.length_le, ?_, ?_, ?_, ?_⟩
  · rw [htake]
    exact isNumber_numberText b flags s
  · intro m hm hnumber
    have hle := (prefix_numberText hnumber (List.take_prefix m s)).length_le
    rwa [List.length_take, Nat.min_eq_left hm] at hle
  · rw [htake]
    intro hfits
    cases houtcome with
    | exact hvalue hgreater _ => exact ⟨hvalue, hgreater⟩
    | tooLarge hover => have := hover.large; omega
    | discarded hover => have := hover.large; omega
  · rw [htake]
    intro hlarge hdiscard
    cases houtcome with
    | exact hvalue =>
      have hlt := scanned.value.toNat_lt
      omega
    | tooLarge _ _ hvalue hgreater => exact ⟨hvalue, hgreater⟩
    | discarded _ hset => rw [hdiscard] at hset; cases hset

/-- What `grok_bin_hex` skips: nothing, the letter, or a zero and the letter. -/
def IsPrefix (letter : UInt8) (p : List UInt8) : Prop :=
  p = [] ∨ ∃ c, isAlphaFoldEq c letter = true ∧ (p = [c] ∨ p = [0x30, c])

theorem prefixOffset_spec (flags : ScanFlags) (letter : UInt8) (start : List UInt8) :
    prefixOffset flags letter start ≤ start.length ∧
      IsPrefix letter (start.take (prefixOffset flags letter start)) := by
  unfold prefixOffset
  split_ifs with hdisallow
  · exact ⟨Nat.zero_le _, Or.inl rfl⟩
  · rcases start with _ | ⟨c, _ | ⟨d, rest⟩⟩
    · exact ⟨Nat.zero_le _, Or.inl rfl⟩
    · exact ⟨Nat.zero_le _, Or.inl rfl⟩
    · dsimp only
      split_ifs with hletter hzero
      · exact ⟨by simp, Or.inr ⟨c, hletter, Or.inl rfl⟩⟩
      · simp only [Bool.and_eq_true, beq_iff_eq] at hzero
        obtain ⟨⟨-, rfl⟩, hd⟩ := hzero
        exact ⟨by simp, Or.inr ⟨d, hd, Or.inr rfl⟩⟩
      · exact ⟨Nat.zero_le _, Or.inl rfl⟩

/-- 0x1_0_ is read without its last underscore. -/
example : (grokHex noFloats { allowUnderscores := true } false
    [0x30, 0x78, 0x31, 0x5F, 0x30, 0x5F]).map (fun scanned => (scanned.value, scanned.len)) =
      some (16, 5) := by
  decide +kernel

end XPerl.Numeric
