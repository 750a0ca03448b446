import Mathlib.Algebra.Order.Ring.Nat
import Mathlib.Data.List.TakeWhile
import Mathlib.Data.Nat.Log
import Mathlib.Dynamics.PeriodicPts.Defs

/-! Numerals of a fixed number of digits, the leading digit first. -/

namespace XPerl.Framework.PlaceValue

variable {b acc m n v : Nat} {ds es : List Nat}

def digits (b : Nat) : Nat → Nat → List Nat
  | 0, _ => []
  | n + 1, v => digits b n (v / b) ++ [v % b]

def readFrom (b acc : Nat) (ds : List Nat) : Nat := ds.foldl (fun v d => v * b + d) acc

def Numeral (b : Nat) (ds : List Nat) : Prop := ∀ d ∈ ds, d < b

@[simp] theorem length_digits (b n v : Nat) : (digits b n v).length = n := by
  induction n generalizing v with
  | zero => rfl
  | succ n ih => rw [digits, List.length_append, ih, List.length_singleton]

theorem numeral_digits (hb : 0 < b) (n v : Nat) : Numeral b (digits b n v) := by
  induction n generalizing v with
  | zero => exact fun d hd => absurd hd List.not_mem_nil
  | succ n ih =>
    intro d hd
    rcases List.mem_append.1 hd with hd | hd
    · exact ih _ d hd
    · rw [List.mem_singleton.1 hd]
      exact Nat.mod_lt v hb

theorem digits_succ (b n v : Nat) : digits b (n + 1) v = v / b ^ n % b :: digits b n v := by
  induction n generalizing v with
  | zero =>
    rw [digits, Nat.pow_zero, Nat.div_one]
    rfl
  | succ n ih =>
    calc digits b (n + 1 + 1) v
        = (v / b / b ^ n % b :: digits b n (v / b)) ++ [v % b] := by rw [digits, ih]
      _ = v / b ^ (n + 1) % b :: digits b (n + 1) v := by
          rw [Nat.div_div_eq_div_mul, ← Nat.pow_succ']
          rfl

@[simp] theorem numeral_append : Numeral b (ds ++ es) ↔ Numeral b ds ∧ Numeral b es :=
  List.forall_mem_append

@[simp] theorem readFrom_nil (b acc : Nat) : readFrom b acc [] = acc := rfl

@[simp] theorem readFrom_cons (b acc d : Nat) (ds : List Nat) :
    readFrom b acc (d :: ds) = readFrom b (acc * b + d) ds := rfl

theorem readFrom_append (b acc : Nat) (ds es : List Nat) :
    readFrom b acc (ds ++ es) = readFrom b (readFrom b acc ds) es := List.foldl_append

theorem readFrom_digits (b acc n v : Nat) :
    readFrom b acc (digits b n v) = acc * b ^ n + v % b ^ n := by
  induction n generalizing v with
  | zero => rw [digits, readFrom_nil, Nat.pow_zero, Nat.mod_one, Nat.mul_one, Nat.add_zero]
  | succ n ih =>
    rw [digits, readFrom_append, ih, readFrom_cons, readFrom_nil, Nat.pow_succ', Nat.mod_mul]
    rw [Nat.add_mul]
    ac_rfl

theorem digits_readFrom (h : Numeral b ds) (acc : Nat) :
    digits b ds.length (readFrom b acc ds) = ds := by
  induction ds using List.reverseRecOn with
  | nil => rfl
  | append_singleton ds d ih =>
    obtain ⟨hds, hd⟩ := numeral_append.1 h
    have hlt : d < b := hd d List.mem_cons_self
    rw [List.length_append, List.length_singleton, digits, readFrom_append, readFrom_cons,
      readFrom_nil, Nat.mul_comm, Nat.mul_add_div (by omega), Nat.div_eq_of_lt hlt, Nat.add_zero,
      ih hds, Nat.mul_add_mod, Nat.mod_eq_of_lt hlt]

theorem le_readFrom (b acc : Nat) (ds : List Nat) : acc * b ^ ds.length ≤ readFrom b acc ds := by
  induction ds generalizing acc with
  | nil => rw [List.length_nil, Nat.pow_zero, Nat.mul_one, readFrom_nil]
  | cons d ds ih =>
    calc acc * b ^ (d :: ds).length
        = acc * b * b ^ ds.length := by rw [List.length_cons, Nat.pow_succ', Nat.mul_assoc]
      _ ≤ (acc * b + d) * b ^ ds.length := Nat.mul_le_mul_right _ (Nat.le_add_right _ _)
      _ ≤ readFrom b acc (d :: ds) := ih _

theorem readFrom_lt (h : Numeral b ds) : readFrom b acc ds < (acc + 1) * b ^ ds.length := by
  induction ds generalizing acc with
  | nil => rw [List.length_nil, Nat.pow_zero, Nat.mul_one, readFrom_nil]; exact Nat.lt_succ_self _
  | cons d ds ih =>
    have hd : d < b := h d List.mem_cons_self
    calc readFrom b acc (d :: ds)
        < (acc * b + d + 1) * b ^ ds.length := ih fun x hx => h x (List.mem_cons_of_mem _ hx)
      _ ≤ (acc + 1) * b * b ^ ds.length :=
          Nat.mul_le_mul_right _ (by rw [Nat.add_mul]; omega)
      _ = (acc + 1) * b ^ (d :: ds).length := by
          rw [List.length_cons, Nat.pow_succ', Nat.mul_assoc]

theorem le_readFrom_iff (h : Numeral b ds) :
    m * b ^ ds.length ≤ readFrom b acc ds ↔ m ≤ acc := by
  constructor
  · intro hle
    have hlt := Nat.lt_of_mul_lt_mul_right (hle.trans_lt (readFrom_lt h))
    omega
  · exact fun hle => (Nat.mul_le_mul_right _ hle).trans (le_readFrom b acc ds)

theorem readFrom_lt_iff (h : Numeral b ds) :
    readFrom b acc ds < m * b ^ ds.length ↔ acc < m := by
  rw [← Nat.not_le, le_readFrom_iff h, Nat.not_le]

theorem readFrom_eq_zero_iff (hb : 0 < b) : readFrom b acc ds = 0 ↔ acc = 0 ∧ ∀ d ∈ ds, d = 0 := by
  induction ds generalizing acc with
  | nil => simp
  | cons d ds ih =>
    rw [readFrom_cons, ih, List.forall_mem_cons, Nat.add_eq_zero_iff, Nat.mul_eq_zero]
    have hne : b ≠ 0 := by omega
    simp only [hne, or_false, and_assoc]

theorem exists_readFrom_iff (hb : 0 < b) :
    (∃ ds, ds.length = n ∧ Numeral b ds ∧ readFrom b acc ds = v) ↔
      acc * b ^ n ≤ v ∧ v < (acc + 1) * b ^ n := by
  constructor
  · intro hex
    obtain ⟨ds, hlen, hds, hread⟩ := hex
    rw [← hlen, ← hread]
    exact ⟨le_readFrom b acc ds, readFrom_lt hds⟩
  · intro hrange
    obtain ⟨hle, hlt⟩ := hrange
    refine ⟨digits b n v, length_digits b n v, numeral_digits hb n v, ?_⟩
    have hdiv : v / b ^ n = acc := Nat.div_eq_of_lt_le hle hlt
    rw [readFrom_digits, ← hdiv, Nat.mul_comm, Nat.div_add_mod]

theorem readFrom_eq_add (b acc : Nat) (ds : List Nat) :
    readFrom b acc ds = acc * b ^ ds.length + readFrom b 0 ds := by
  induction ds generalizing acc with
  | nil => rw [List.length_nil, Nat.pow_zero, Nat.mul_one, readFrom_nil, readFrom_nil, Nat.add_zero]
  | cons d ds ih =>
    calc readFrom b acc (d :: ds) = (acc * b + d) * b ^ ds.length + readFrom b 0 ds := ih _
      _ = acc * b ^ (d :: ds).length + (d * b ^ ds.length + readFrom b 0 ds) := by
          rw [List.length_cons, Nat.pow_succ', Nat.add_mul, Nat.mul_assoc, Nat.add_assoc]
      _ = acc * b ^ (d :: ds).length + readFrom b 0 (d :: ds) := by
          rw [readFrom_cons, Nat.zero_mul, Nat.zero_add, ih d]

/-- A number with digits behind it, to the nearest integer, ties to even. -/
def nearestEven (b v : Nat) (ds : List Nat) : Nat :=
  if 2 * readFrom b 0 ds < b ^ ds.length then v
  else if b ^ ds.length < 2 * readFrom b 0 ds then v + 1
  else v + v % 2

theorem nearestEven_cons {h d v : Nat} (hb : b = 2 * h) (hds : Numeral b ds) (hd : d < b) :
    nearestEven b v (d :: ds) =
      if d < h then v else if h < d ∨ ∃ x ∈ ds, x ≠ 0 then v + 1 else v + v % 2 := by
  have hpos : 0 < b := by omega
  have hread : readFrom b 0 (d :: ds) = readFrom b d ds := by
    rw [readFrom_cons, Nat.zero_mul, Nat.zero_add]
  have hpow : b ^ (d :: ds).length = 2 * (h * b ^ ds.length) := by
    rw [List.length_cons, Nat.pow_succ', hb, Nat.mul_assoc]
  have hlow : readFrom b d ds < h * b ^ ds.length ↔ d < h := readFrom_lt_iff hds
  have hhigh : h * b ^ ds.length < readFrom b d ds ↔ h < d ∨ (d = h ∧ ∃ x ∈ ds, x ≠ 0) := by
    have habove : (h + 1) * b ^ ds.length ≤ readFrom b d ds ↔ h + 1 ≤ d := le_readFrom_iff hds
    rcases Nat.lt_trichotomy d h with hlt | rfl | hgt
    · have hnot := hlow.2 hlt
      constructor
      · intro hcontra
        omega
      · rintro (hcontra | ⟨rfl, -⟩) <;> omega
    · have hzero : readFrom b 0 ds = 0 ↔ 0 = 0 ∧ ∀ x ∈ ds, x = 0 := readFrom_eq_zero_iff hpos
      rw [readFrom_eq_add b d ds]
      simp only [Nat.lt_irrefl, false_or, true_and]
      constructor
      · intro hlt
        by_contra hall
        push Not at hall
        have := hzero.2 ⟨rfl, hall⟩
        omega
      · rintro ⟨x, hx, hne⟩
        have hnot : readFrom b 0 ds ≠ 0 := fun hz => hne ((hzero.1 hz).2 x hx)
        omega
    · have hle := habove.2 hgt
      rw [Nat.succ_mul] at hle
      have hone : 0 < b ^ ds.length := Nat.pow_pos hpos
      exact iff_of_true (by omega) (Or.inl hgt)
  unfold nearestEven
  rw [hread, hpow]
  by_cases hlt : d < h
  · rw [if_pos hlt, if_pos (by have := hlow.2 hlt; omega)]
  · have hge : ¬2 * readFrom b d ds < 2 * (h * b ^ ds.length) := fun hc =>
      hlt (hlow.1 (by omega))
    have hup : 2 * (h * b ^ ds.length) < 2 * readFrom b d ds ↔ h < d ∨ ∃ x ∈ ds, x ≠ 0 := by
      rw [Nat.mul_lt_mul_left (by decide : 0 < 2), hhigh]
      constructor
      · exact Or.imp_right And.right
      · rintro (hgt | hex)
        · exact Or.inl hgt
        · rcases Nat.lt_or_ge h d with hgt | hle
          · exact Or.inl hgt
          · exact Or.inr ⟨by omega, hex⟩
    rw [if_neg hlt, if_neg hge]
    simp only [hup]

end XPerl.Framework.PlaceValue

/-! Two wheels: the second turns when the first comes to a mark. -/

namespace XPerl.Framework.Odometer

open Function

variable {α β : Type} [DecidableEq α] (f : α → α) (g : β → β) (mark : α)

def tick (p : α × β) : α × β := (f p.1, if f p.1 = mark then g p.2 else p.2)

def marks (s : α) : Nat → Nat
  | 0 => 0
  | n + 1 => marks s n + if f^[n + 1] s = mark then 1 else 0

variable {f g mark}

theorem tick_injective (hf : Injective f) (hg : Injective g) : Injective (tick f g mark) := by
  intro p q h
  obtain ⟨hfirst, hsecond⟩ := Prod.mk.inj h
  have hpq := hf hfirst
  rw [hpq] at hsecond
  apply Prod.ext hpq
  by_cases hmark : f q.1 = mark
  · rw [if_pos hmark, if_pos hmark] at hsecond
    exact hg hsecond
  · rw [if_neg hmark, if_neg hmark] at hsecond
    exact hsecond

omit [DecidableEq α] in
theorem injective_of_iterate_eq {n : Nat} (h : ∀ s, f^[n + 1] s = s) : Injective f := by
  intro s t hst
  rw [← h s, ← h t, iterate_succ_apply, iterate_succ_apply, hst]

theorem iterate_tick (s : α) (e : β) (n : Nat) :
    (tick f g mark)^[n] (s, e) = (f^[n] s, g^[marks f mark s n] e) := by
  induction n with
  | zero => rfl
  | succ n ih =>
    rw [iterate_succ_apply', ih, tick, marks, iterate_succ_apply' f]
    by_cases hmark : f (f^[n] s) = mark
    · rw [if_pos hmark, if_pos hmark, iterate_succ_apply' g]
    · rw [if_neg hmark, if_neg hmark, Nat.add_zero]

theorem marks_add (s : α) (m n : Nat) :
    marks f mark s (m + n) = marks f mark s m + marks f mark (f^[m] s) n := by
  induction n with
  | zero => rfl
  | succ n ih =>
    have hiterate : f^[m + n + 1] s = f^[n + 1] (f^[m] s) := by
      rw [← iterate_add_apply]
      congr 1
      omega
    rw [← Nat.add_assoc, marks, marks, ih, hiterate, Nat.add_assoc]

section Cycle

variable {N M : Nat} (hcycle : ∀ s y, ∃! n, n < N ∧ f^[n] s = y)

include hcycle

theorem marks_cycle (s : α) : marks f mark s N = 1 := by
  obtain ⟨k, ⟨hk, hmark⟩, hunique⟩ := hcycle (f s) mark
  have hcount (n : Nat) (hn : n ≤ N) : marks f mark s n = if k < n then 1 else 0 := by
    induction n with
    | zero => rfl
    | succ n ih =>
      rw [marks, ih (by omega), iterate_succ_apply]
      by_cases hhere : f^[n] (f s) = mark
      · have heq := hunique n ⟨by omega, hhere⟩
        rw [if_pos hhere, if_neg (by omega), if_pos (by omega)]
      · have hne : n ≠ k := fun h => hhere (h ▸ hmark)
        rw [if_neg hhere, Nat.add_zero]
        by_cases hlt : k < n
        · rw [if_pos hlt, if_pos (by omega)]
        · rw [if_neg hlt, if_neg (by omega)]
  rw [hcount N (Nat.le_refl N), if_pos hk]

variable (hperiod : ∀ s n, f^[n] s = s ↔ N ∣ n)

include hperiod

theorem marks_cycles (s : α) (k : Nat) : marks f mark s (N * k) = k := by
  induction k with
  | zero => rfl
  | succ k ih =>
    have hback : f^[N * k] s = s := (hperiod s _).2 (Nat.dvd_mul_right N k)
    rw [Nat.mul_succ, marks_add, ih, hback, marks_cycle hcycle]

theorem iterate_tick_eq_iff (hsecond : ∀ e n, g^[n] e = e ↔ M ∣ n) (hN : 0 < N) (p : α × β)
    (n : Nat) : (tick f g mark)^[n] p = p ↔ N * M ∣ n := by
  obtain ⟨s, e⟩ := p
  rw [iterate_tick, Prod.mk.injEq, hperiod]
  constructor
  · intro h
    obtain ⟨k, hk⟩ := h.1
    have hturns := h.2
    rw [hk, marks_cycles hcycle hperiod, hsecond] at hturns
    rw [hk]
    exact Nat.mul_dvd_mul_left N hturns
  · intro h
    obtain ⟨k, hk⟩ := dvd_trans (Nat.dvd_mul_right N M) h
    rw [hk] at h ⊢
    rw [marks_cycles hcycle hperiod, hsecond]
    exact ⟨Nat.dvd_mul_right N k, Nat.dvd_of_mul_dvd_mul_left hN h⟩

end Cycle

end XPerl.Framework.Odometer

/-! Numerals without leading zeros. -/

namespace XPerl.Framework.PlaceValue

variable {b d v w : Nat} {ds es : List Nat}

def numeral (b v : Nat) : List Nat := digits b (Nat.log b v + 1) v

theorem numeral_of_lt (h : v < b) : numeral b v = [v] := by
  rw [numeral, Nat.log_of_lt h, Nat.zero_add, digits, digits, Nat.mod_eq_of_lt h]
  rfl

theorem numeral_of_le (hb : 1 < b) (h : b ≤ v) : numeral b v = numeral b (v / b) ++ [v % b] := by
  have hlog : 1 ≤ Nat.log b v := Nat.log_pos hb h
  rw [numeral, numeral, Nat.log_div_base, show Nat.log b v - 1 + 1 = Nat.log b v by omega, digits]

theorem numeral_digits_numeral (hb : 0 < b) (v : Nat) : Numeral b (numeral b v) :=
  numeral_digits hb _ v

@[simp] theorem length_numeral (b v : Nat) : (numeral b v).length = Nat.log b v + 1 :=
  length_digits b _ v

theorem numeral_ne_nil (b v : Nat) : numeral b v ≠ [] := by
  have hlength := length_numeral b v
  intro hnil
  rw [hnil] at hlength
  cases hlength

@[simp] theorem readFrom_numeral (hb : 1 < b) (v : Nat) : readFrom b 0 (numeral b v) = v := by
  rw [numeral, readFrom_digits, Nat.zero_mul, Nat.zero_add,
    Nat.mod_eq_of_lt (Nat.lt_pow_succ_log_self hb v)]

theorem numeral_readFrom (h : Numeral b (d :: ds)) (hd : d ≠ 0) :
    numeral b (readFrom b 0 (d :: ds)) = d :: ds := by
  have hread : readFrom b 0 (d :: ds) = readFrom b d ds := by
    rw [readFrom_cons, Nat.zero_mul, Nat.zero_add]
  have hlow : b ^ ds.length ≤ readFrom b 0 (d :: ds) := by
    rw [hread]
    exact (Nat.le_mul_of_pos_left _ (Nat.pos_of_ne_zero hd)).trans (le_readFrom b d ds)
  have hhigh : readFrom b 0 (d :: ds) < b ^ (ds.length + 1) := by
    have hlt : readFrom b 0 (d :: ds) < (0 + 1) * b ^ (d :: ds).length := readFrom_lt h
    rwa [Nat.zero_add, Nat.one_mul] at hlt
  rw [numeral, Nat.log_eq_of_pow_le_of_lt_pow hlow hhigh]
  exact digits_readFrom h 0

theorem dropWhile_eq_numeral (h : Numeral b ds) (hne : readFrom b 0 ds ≠ 0) :
    ds.dropWhile (· = 0) = numeral b (readFrom b 0 ds) := by
  induction ds with
  | nil => exact absurd rfl hne
  | cons d ds ih =>
    by_cases hd : d = 0
    · subst hd
      have hread : readFrom b 0 (0 :: ds) = readFrom b 0 ds := by
        rw [readFrom_cons, Nat.zero_mul]
      rw [hread] at hne ⊢
      rw [List.dropWhile_cons, if_pos (by simp)]
      exact ih (fun x hx => h x (List.mem_cons_of_mem 0 hx)) hne
    · rw [List.dropWhile_cons, if_neg (by simpa using hd), numeral_readFrom h hd]

theorem dropWhile_eq_nil (hb : 0 < b) (h : readFrom b 0 ds = 0) : ds.dropWhile (· = 0) = [] := by
  rw [List.dropWhile_eq_nil_iff]
  intro d hd
  simpa using ((readFrom_eq_zero_iff hb).1 h).2 d hd

theorem length_numeral_le (h : Numeral b ds) (hne : ds ≠ []) :
    (numeral b (readFrom b 0 ds)).length ≤ ds.length ∧
      ((numeral b (readFrom b 0 ds)).length = ds.length → numeral b (readFrom b 0 ds) = ds) := by
  have hpos := List.length_pos_of_ne_nil hne
  have hlt : readFrom b 0 ds < (0 + 1) * b ^ ds.length := readFrom_lt h
  rw [Nat.zero_add, Nat.one_mul] at hlt
  constructor
  · rw [length_numeral]
    by_cases hzero : readFrom b 0 ds = 0
    · rw [hzero, Nat.log_zero_right]
      omega
    · have hlog := Nat.log_lt_of_lt_pow hzero hlt
      omega
  · intro hlength
    rw [length_numeral] at hlength
    rw [numeral, hlength]
    exact digits_readFrom h 0

end XPerl.Framework.PlaceValue
