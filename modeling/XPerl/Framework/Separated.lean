import XPerl.Framework.PlaceValue

/-! Numerals with single separators between their digits, and the longest one that a text starts
with. -/

namespace XPerl.Framework.Separated

open XPerl.Framework.PlaceValue

/-- How numerals are written: which characters are digits, what each of them is worth, and the
separator, if there is one. -/
structure Script (α : Type) where
  digit : α → Bool
  worth : α → Nat
  sep : α
  allow : Bool
  base : Nat
  worth_lt : ∀ c, digit c = true → worth c < base
  digit_sep : digit sep = false

variable {α : Type} (n : Script α) {c : α} {s t : List α}

/-- Digits, each with at most one separator in front of it. -/
inductive Numerals : List α → Prop where
  | nil : Numerals []
  | digit {c : α} {s : List α} : n.digit c = true → Numerals s → Numerals (c :: s)
  | separated {c : α} {s : List α} : n.allow = true → n.digit c = true → Numerals s →
      Numerals (n.sep :: c :: s)

def Script.starts : List α → Bool
  | [] => false
  | c :: _ => n.digit c

/-- The longest numeral at the start. -/
def Script.run [DecidableEq α] : List α → List α
  | [] => []
  | c :: s =>
    if n.digit c then c :: run s
    else if c = n.sep ∧ n.allow = true ∧ n.starts s = true then c :: run s
    else []

/-- The values of the digits. -/
def Script.digits (s : List α) : List Nat := (s.filter n.digit).map n.worth

/-- The number that a text stands for behind one that has been read. -/
def Script.read (acc : Nat) (s : List α) : Nat := readFrom n.base acc (n.digits s)

section Reading

variable {n} {acc : Nat}

@[simp] theorem digits_nil : n.digits ([] : List α) = [] := rfl

theorem digits_cons_digit (h : n.digit c = true) : n.digits (c :: s) = n.worth c :: n.digits s := by
  simp [Script.digits, h]

theorem digits_cons_other (h : n.digit c = false) : n.digits (c :: s) = n.digits s := by
  simp [Script.digits, h]

@[simp] theorem digits_append : n.digits (s ++ t) = n.digits s ++ n.digits t := by
  simp [Script.digits]

theorem digits_filter : n.digits (s.filter n.digit) = n.digits s := by
  simp [Script.digits]

theorem numeral_worths : Numeral n.base (n.digits s) := by
  intro d hd
  obtain ⟨c, hc, rfl⟩ := List.mem_map.1 hd
  exact n.worth_lt c (List.mem_filter.1 hc).2

@[simp] theorem read_nil : n.read acc ([] : List α) = acc := rfl

theorem read_cons_digit (h : n.digit c = true) :
    n.read acc (c :: s) = n.read (acc * n.base + n.worth c) s := by
  rw [Script.read, digits_cons_digit h, readFrom_cons, Script.read]

theorem read_cons_other (h : n.digit c = false) : n.read acc (c :: s) = n.read acc s := by
  rw [Script.read, digits_cons_other h, Script.read]

theorem read_append : n.read acc (s ++ t) = n.read (n.read acc s) t := by
  rw [Script.read, digits_append, readFrom_append, Script.read, Script.read]

theorem le_read (hb : 0 < n.base) : acc ≤ n.read acc s :=
  (Nat.le_mul_of_pos_right acc (Nat.pow_pos hb)).trans (le_readFrom n.base acc (n.digits s))

end Reading

section Texts

variable {n}

theorem numerals_of_digits (h : ∀ c ∈ s, n.digit c = true) : Numerals n s := by
  induction s with
  | nil => exact .nil
  | cons c s ih =>
    exact .digit (h c List.mem_cons_self) (ih fun d hd => h d (List.mem_cons_of_mem c hd))

theorem Numerals.mem (h : Numerals n s) (hc : c ∈ s) : n.digit c = true ∨ c = n.sep := by
  induction h with
  | nil => cases hc
  | digit hd _ ih =>
    rcases List.mem_cons.1 hc with rfl | hc
    · exact Or.inl hd
    · exact ih hc
  | separated _ hd _ ih =>
    rcases List.mem_cons.1 hc with rfl | hc
    · exact Or.inr rfl
    · rcases List.mem_cons.1 hc with rfl | hc
      · exact Or.inl hd
      · exact ih hc

end Texts

section Longest

variable [DecidableEq α] {n}

theorem run_cons_digit (h : n.digit c = true) : n.run (c :: s) = c :: n.run s := by
  rw [Script.run, if_pos h]

theorem run_cons_sep (ha : n.allow = true) (hs : n.starts s = true) :
    n.run (n.sep :: s) = n.sep :: n.run s := by
  rw [Script.run, if_neg (by simp [n.digit_sep]), if_pos ⟨rfl, ha, hs⟩]

theorem run_eq_nil (hd : n.starts s = false)
    (hsep : ∀ t, s = n.sep :: t → n.allow = true → n.starts t = false) : n.run s = [] := by
  cases s with
  | nil => rfl
  | cons c s =>
    have hc : ¬n.digit c = true := by
      rw [Script.starts] at hd
      simp [hd]
    rw [Script.run, if_neg hc, if_neg]
    rintro ⟨rfl, ha, hs⟩
    rw [hsep s rfl ha] at hs
    cases hs

theorem run_prefix : n.run s <+: s := by
  induction s with
  | nil => exact List.prefix_rfl
  | cons c s ih =>
    rw [Script.run]
    split_ifs
    · exact (List.prefix_cons_inj c).2 ih
    · exact (List.prefix_cons_inj c).2 ih
    · exact List.nil_prefix

theorem numerals_run : Numerals n (n.run s) := by
  induction s with
  | nil => exact .nil
  | cons c s ih =>
    rw [Script.run]
    split_ifs with hc hsep
    · exact .digit hc ih
    · obtain ⟨rfl, ha, hs⟩ := hsep
      cases s with
      | nil => cases hs
      | cons d s =>
        rw [Script.starts] at hs
        rw [run_cons_digit hs] at ih ⊢
        refine .separated ha hs ?_
        generalize n.run s = r at ih
        cases ih with
        | digit _ hr => exact hr
        | separated => rw [n.digit_sep] at hs; cases hs
    · exact .nil

theorem run_append (h : Numerals n t) : n.run (t ++ s) = t ++ n.run s := by
  induction h with
  | nil => rfl
  | digit hc _ ih => rw [List.cons_append, run_cons_digit hc, ih, List.cons_append]
  | @separated c t ha hc _ ih =>
    have hs : n.starts (c :: (t ++ s)) = true := hc
    rw [List.cons_append, List.cons_append, run_cons_sep ha hs, run_cons_digit hc, ih]
    rfl

theorem prefix_run (h : Numerals n t) (hpre : t <+: s) : t <+: n.run s := by
  obtain ⟨r, rfl⟩ := hpre
  rw [run_append h]
  exact List.prefix_append t _

theorem run_eq_self (h : Numerals n s) : n.run s = s := by
  have happ := run_append (s := []) h
  simpa [Script.run] using happ

end Longest

section Advancing

variable [DecidableEq α]

/-- A scanner went from one place of the run to another and has read what lies between. -/
structure Advances (s : List α) (acc : Nat) (t : List α) (acc' : Nat) : Prop where
  between : ∃ r, s = r ++ t ∧ n.run s = r ++ n.run t ∧ acc' = n.read acc r

variable {n} {acc acc' acc'' : Nat} {u : List α}

theorem Advances.refl (s : List α) (acc : Nat) : Advances n s acc s acc :=
  ⟨[], rfl, rfl, rfl⟩

theorem Advances.trans (h : Advances n s acc t acc') (h' : Advances n t acc' u acc'') :
    Advances n s acc u acc'' := by
  obtain ⟨r, hs, hrun, hread⟩ := h.between
  obtain ⟨r', ht, hrun', hread'⟩ := h'.between
  refine ⟨r ++ r', by rw [hs, ht, List.append_assoc], by rw [hrun, hrun', List.append_assoc], ?_⟩
  rw [hread', hread, read_append]

theorem Advances.digit (h : n.digit c = true) :
    Advances n (c :: s) acc s (acc * n.base + n.worth c) :=
  ⟨[c], rfl, run_cons_digit h, by rw [read_cons_digit h, read_nil]⟩

theorem Advances.sep (ha : n.allow = true) (hs : n.starts s = true) :
    Advances n (n.sep :: s) acc s acc :=
  ⟨[n.sep], rfl, run_cons_sep ha hs, by rw [read_cons_other n.digit_sep, read_nil]⟩

theorem Advances.ends (h : Advances n s acc t acc') (ht : t = n.run t ++ u)
    (hread : acc'' = n.read acc' (n.run t)) :
    s = n.run s ++ u ∧ acc'' = n.read acc (n.run s) := by
  obtain ⟨r, hs, hrun, hr⟩ := h.between
  refine ⟨?_, ?_⟩
  · calc s = r ++ (n.run t ++ u) := by rw [← ht]; exact hs
      _ = n.run s ++ u := by rw [hrun, List.append_assoc]
  · rw [hread, hr, hrun, read_append]

end Advancing

end XPerl.Framework.Separated
