import XPerl.Framework.Congruential
import XPerl.Framework.PlaceValue
import XPerl.Rng.Pcg

/-! The period of the extended generator: its extension turns when its state comes round. -/

namespace XPerl.Rng

open Function XPerl.Framework.Congruential XPerl.Framework.Odometer

def pcgStep (value : PcgData) : PcgData := (pcgNextData value).1

/-- The extension as one number, `extension[0]` its low word. -/
def PcgData.counter (value : PcgData) : BitVec 64 := value.extension1 ++ value.extension0

def pcgBase (state : BitVec 64) : BitVec 64 := pcgMultiplier * state + pcgIncrement

theorem iterate_pcgBase_eq_iff (state : BitVec 64) (n : Nat) :
    pcgBase^[n] state = state ↔ 2 ^ 64 ∣ n :=
  isPeriodicPt_affine_iff (a := pcgMultiplier) (c := pcgIncrement) (by decide) (by decide) state n

theorem existsUnique_iterate_pcgBase (state y : BitVec 64) :
    ∃! n, n < 2 ^ 64 ∧ pcgBase^[n] state = y :=
  existsUnique_iterate_affine (a := pcgMultiplier) (c := pcgIncrement) (by decide) (by decide)
    state y

theorem iterate_succ_eq_iff (e : BitVec 64) (n : Nat) :
    (fun y : BitVec 64 => y + 1)^[n] e = e ↔ 2 ^ 64 ∣ n := by
  have h := isPeriodicPt_affine_iff (a := (1 : BitVec 64)) (c := 1) (by decide) (by decide) e n
  have hstep : (fun y : BitVec 64 => 1 * y + 1) = fun y => y + 1 := by
    funext y
    rw [one_mul]
  rw [hstep] at h
  exact h

theorem toNat_append_words (high low : BitVec 32) :
    (high ++ low : BitVec 64).toNat = high.toNat * 4294967296 + low.toNat := by
  have happend : (high ++ low).toNat = high.toNat <<< 32 ||| low.toNat :=
    BitVec.toNat_append high low
  exact happend.trans (by rw [← Nat.shiftLeft_add_eq_or_of_lt low.isLt, Nat.shiftLeft_eq])

theorem append_words_inj {h h' l l' : BitVec 32}
    (heq : (h ++ l : BitVec 64) = (h' ++ l' : BitVec 64)) : h = h' ∧ l = l' := by
  have hnat := congrArg BitVec.toNat heq
  rw [toNat_append_words, toNat_append_words] at hnat
  have hl := l.isLt
  have hl' := l'.isLt
  exact ⟨BitVec.eq_of_toNat_eq (by omega), BitVec.eq_of_toNat_eq (by omega)⟩

theorem append_add_one (high low : BitVec 32) :
    (if low + 1 = 0 then high + 1 else high) ++ (low + 1) = (high ++ low : BitVec 64) + 1 := by
  have hwhole := toNat_append_words high low
  have hhigh := high.isLt
  have hlow := low.isLt
  have hsucc (x : BitVec 32) : (x + 1).toNat = (x.toNat + 1) % 4294967296 := rfl
  apply BitVec.eq_of_toNat_eq
  have hnext : ((high ++ low : BitVec 64) + 1).toNat =
      ((high ++ low : BitVec 64).toNat + 1) % 18446744073709551616 := rfl
  by_cases hcarry : low + 1 = 0
  · have hzero : (low.toNat + 1) % 4294967296 = 0 :=
      (hsucc low).symm.trans (congrArg BitVec.toNat hcarry)
    rw [if_pos hcarry, toNat_append_words, hnext, hwhole, hsucc, hsucc]
    omega
  · have hsome : (low + 1).toNat ≠ 0 := fun h => hcarry (BitVec.eq_of_toNat_eq h)
    rw [hsucc] at hsome
    rw [if_neg hcarry, toNat_append_words, hnext, hwhole, hsucc]
    omega

theorem pcgStep_eq (value : PcgData) :
    pcgStep value = pcgTurn { value with state := pcgBase value.state } := by
  rw [pcgStep, pcgNextData, pcgBase, BitVec.mul_comm]

theorem pcgStep_initial (value : PcgData) : (pcgStep value).initial = value.initial := by
  rw [pcgStep_eq, pcgTurn]
  dsimp only
  by_cases hinitial : pcgBase value.state = value.initial
  · rw [if_pos hinitial]
  · rw [if_neg hinitial]

theorem pcgStep_view (value : PcgData) :
    ((pcgStep value).state, (pcgStep value).counter) =
      tick pcgBase (fun e => e + 1) value.initial (value.state, value.counter) := by
  rw [pcgStep_eq, pcgTurn, tick]
  dsimp only
  by_cases hinitial : pcgBase value.state = value.initial
  · rw [if_pos hinitial, if_pos hinitial]
    exact congrArg (Prod.mk _) (append_add_one value.extension1 value.extension0)
  · rw [if_neg hinitial, if_neg hinitial, PcgData.counter, PcgData.counter]

theorem iterate_pcgStep_initial (value : PcgData) (n : Nat) :
    (pcgStep^[n] value).initial = value.initial := by
  induction n with
  | zero => rfl
  | succ n ih => rw [iterate_succ_apply', pcgStep_initial, ih]

theorem iterate_pcgStep_view (value : PcgData) (n : Nat) :
    ((pcgStep^[n] value).state, (pcgStep^[n] value).counter) =
      (tick pcgBase (fun e => e + 1) value.initial)^[n] (value.state, value.counter) := by
  induction n with
  | zero => rfl
  | succ n ih =>
    rw [iterate_succ_apply', iterate_succ_apply', pcgStep_view, ih, iterate_pcgStep_initial]

theorem iterate_pcgStep_state (value : PcgData) (n : Nat) :
    (pcgStep^[n] value).state = pcgBase^[n] value.state := by
  have h := congrArg Prod.fst (iterate_pcgStep_view value n)
  rwa [iterate_tick] at h

theorem counter_pcgStep (value : PcgData) :
    (pcgStep value).counter =
      if pcgBase value.state = value.initial then value.counter + 1 else value.counter := by
  have h := pcgStep_view value
  rw [tick] at h
  exact (Prod.mk.inj h).2

theorem counter_pcgStep_ne_iff (value : PcgData) :
    (pcgStep value).counter ≠ value.counter ↔ pcgBase value.state = value.initial := by
  rw [counter_pcgStep]
  by_cases hinitial : pcgBase value.state = value.initial
  · rw [if_pos hinitial]
    have hmoves : value.counter + 1 ≠ value.counter := by
      intro h
      exact absurd (add_eq_left.1 h) (by decide)
    exact iff_of_true hmoves hinitial
  · rw [if_neg hinitial]
    exact iff_of_false (fun h => h rfl) hinitial

theorem ext_of_view {v w : PcgData} (hinitial : v.initial = w.initial)
    (h : (v.state, v.counter) = (w.state, w.counter)) : v = w := by
  obtain ⟨hstate, hcounter⟩ := Prod.mk.inj h
  obtain ⟨hextension1, hextension0⟩ := append_words_inj hcounter
  exact PcgData.ext hstate hextension0 hextension1 hinitial

theorem pcgBase_injective : Injective pcgBase := by
  apply injective_of_iterate_eq (n := 18446744073709551615)
  intro state
  rw [iterate_pcgBase_eq_iff]
  norm_num

theorem pcgStep_injective {v w : PcgData} (hinitial : v.initial = w.initial)
    (h : pcgStep v = pcgStep w) : v = w := by
  have hview : tick pcgBase (fun e => e + 1) w.initial (v.state, v.counter) =
      tick pcgBase (fun e => e + 1) w.initial (w.state, w.counter) := by
    rw [← pcgStep_view w, ← h, ← hinitial, pcgStep_view v]
  exact ext_of_view hinitial (tick_injective pcgBase_injective (add_left_injective 1) hview)

theorem iterate_pcgStep_eq_iff (value : PcgData) (n : Nat) :
    pcgStep^[n] value = value ↔ 2 ^ 64 * 2 ^ 64 ∣ n := by
  have htick : (tick pcgBase (fun e => e + 1) value.initial)^[n] (value.state, value.counter) =
      (value.state, value.counter) ↔ 2 ^ 64 * 2 ^ 64 ∣ n :=
    iterate_tick_eq_iff existsUnique_iterate_pcgBase iterate_pcgBase_eq_iff iterate_succ_eq_iff
      (Nat.two_pow_pos 64) (value.state, value.counter) n
  rw [← htick, ← iterate_pcgStep_view]
  constructor
  · intro h
    rw [h]
  · intro h
    exact ext_of_view (iterate_pcgStep_initial value n) h

theorem existsUnique_counter_ne (value : PcgData) :
    ∃! n, n < 2 ^ 64 ∧ (pcgStep^[n + 1] value).counter ≠ (pcgStep^[n] value).counter := by
  have hmoves (n : Nat) : (pcgStep^[n + 1] value).counter ≠ (pcgStep^[n] value).counter ↔
      pcgBase^[n] (pcgBase value.state) = value.initial := by
    rw [iterate_succ_apply', counter_pcgStep_ne_iff, iterate_pcgStep_state,
      iterate_pcgStep_initial, ← iterate_succ_apply' pcgBase, iterate_succ_apply]
  simp only [hmoves]
  exact existsUnique_iterate_pcgBase (pcgBase value.state) value.initial

theorem counter_after_cycle (value : PcgData) :
    (pcgStep^[2 ^ 64] value).counter = value.counter + 1 := by
  have h := iterate_pcgStep_view value (2 ^ 64)
  rw [iterate_tick, marks_cycle existsUnique_iterate_pcgBase] at h
  exact (Prod.mk.inj h).2

/-- The period of the extended generator. -/
theorem pcg_full_period :
    (∀ initial, Set.BijOn pcgStep {v | v.initial = initial} {v | v.initial = initial}) ∧
    ∀ value : PcgData,
      (∀ y, ∃! n, n < 2 ^ 64 ∧ (pcgStep^[n] value).state = y) ∧
      (∃! n, n < 2 ^ 64 ∧ (pcgStep^[n + 1] value).counter ≠ (pcgStep^[n] value).counter) ∧
      (∀ n, (pcgStep^[n + 1] value).counter ≠ (pcgStep^[n] value).counter →
        (pcgStep^[n + 1] value).counter = (pcgStep^[n] value).counter + 1) ∧
      (pcgStep^[2 ^ 64] value).counter = value.counter + 1 ∧
      ∀ n, 0 < n → n < 2 ^ 128 →
        ¬ ((pcgStep^[n] value).state = value.state ∧
          (pcgStep^[n] value).extension0 = value.extension0 ∧
          (pcgStep^[n] value).extension1 = value.extension1) := by
  constructor
  · intro initial
    refine ⟨?_, ?_, ?_⟩
    · intro v hv
      exact (pcgStep_initial v).trans hv
    · intro v hv w hw h
      exact pcgStep_injective (hv.trans hw.symm) h
    · intro v hv
      refine ⟨pcgStep^[340282366920938463463374607431768211455] v, ?_, ?_⟩
      · exact (iterate_pcgStep_initial v _).trans hv
      · rw [← iterate_succ_apply' pcgStep, iterate_pcgStep_eq_iff]
        norm_num
  · intro value
    refine ⟨?_, existsUnique_counter_ne value, ?_, counter_after_cycle value, ?_⟩
    · intro y
      simp only [iterate_pcgStep_state]
      exact existsUnique_iterate_pcgBase value.state y
    · intro n hmoves
      rw [iterate_succ_apply', counter_pcgStep_ne_iff] at hmoves
      rw [iterate_succ_apply', counter_pcgStep, if_pos hmoves]
    · intro n hpos hlt h
      have hback : pcgStep^[n] value = value :=
        PcgData.ext h.1 h.2.1 h.2.2 (iterate_pcgStep_initial value n)
      have hle := Nat.le_of_dvd hpos ((iterate_pcgStep_eq_iff value n).1 hback)
      omega

end XPerl.Rng
