import Mathlib.Data.Finset.Basic

/-! How many values have a property, as the length of a list of them. -/

namespace XPerl.Framework

variable {α : Type} {P Q : α → Prop} {n m : Nat}

def Counted (P : α → Prop) (n : Nat) : Prop :=
  ∃ l : List α, l.Nodup ∧ (∀ a, a ∈ l ↔ P a) ∧ l.length = n

theorem Counted.congr (h : Counted P n) (hPQ : ∀ a, P a ↔ Q a) : Counted Q n := by
  obtain ⟨l, hnd, hmem, hlen⟩ := h
  exact ⟨l, hnd, fun a => (hmem a).trans (hPQ a), hlen⟩

theorem Counted.zero (h : ∀ a, ¬ P a) : Counted P 0 := by
  refine ⟨[], List.nodup_nil, ?_, rfl⟩
  intro a
  simp [h a]

theorem Counted.insert (h : Counted P n) {x : α} (hx : ¬ P x) (hQ : ∀ a, Q a ↔ a = x ∨ P a) :
    Counted Q (n + 1) := by
  obtain ⟨l, hnd, hmem, hlen⟩ := h
  refine ⟨x :: l, ?_, ?_, by rw [List.length_cons, hlen]⟩
  · apply List.nodup_cons.2
    exact ⟨fun hl => hx ((hmem x).1 hl), hnd⟩
  · intro a
    rw [List.mem_cons, hQ, hmem]

theorem Counted.erase [DecidableEq α] (h : Counted P n) {x : α} (hx : P x)
    (hQ : ∀ a, Q a ↔ P a ∧ a ≠ x) : Counted Q (n - 1) ∧ 0 < n := by
  obtain ⟨l, hnd, hmem, hlen⟩ := h
  have hl : x ∈ l := (hmem x).2 hx
  have hpos : 0 < l.length := List.length_pos_of_mem hl
  refine ⟨⟨l.erase x, hnd.erase x, ?_, ?_⟩, by omega⟩
  · intro a
    rw [hnd.mem_erase_iff, hQ, hmem]
    exact And.comm
  · rw [List.length_erase_of_mem hl, hlen]

theorem Counted.map {β : Type} {R : β → Prop} (h : Counted P n) (f : α → β)
    (hinj : ∀ a b, P a → P b → f a = f b → a = b) (hR : ∀ b, R b ↔ ∃ a, P a ∧ f a = b) :
    Counted R n := by
  obtain ⟨l, hnd, hmem, hlen⟩ := h
  refine ⟨l.map f, ?_, ?_, by rw [List.length_map, hlen]⟩
  · apply List.Nodup.map_on _ hnd
    intro a ha b hb heq
    exact hinj a b ((hmem a).1 ha) ((hmem b).1 hb) heq
  · intro b
    rw [List.mem_map, hR]
    simp only [hmem]

theorem Counted.unique (h : Counted P n) (h' : Counted P m) : n = m := by
  obtain ⟨l, hnd, hmem, rfl⟩ := h
  obtain ⟨l', hnd', hmem', rfl⟩ := h'
  have hsub : l ⊆ l' := fun a ha => (hmem' a).2 ((hmem a).1 ha)
  have hsub' : l' ⊆ l := fun a ha => (hmem a).2 ((hmem' a).1 ha)
  exact Nat.le_antisymm (List.Nodup.subperm hnd hsub).length_le (List.Nodup.subperm hnd' hsub').length_le

theorem Counted.length_le (h : Counted P n) {l : List α} (hnd : l.Nodup) (hl : ∀ a ∈ l, P a) :
    l.length ≤ n := by
  obtain ⟨l', -, hmem, rfl⟩ := h
  have hsub : l ⊆ l' := fun a ha => (hmem a).2 (hl a ha)
  exact (List.Nodup.subperm hnd hsub).length_le

theorem Counted.diff [DecidableEq α] (h : Counted P n) (h' : Counted Q m) (hsub : ∀ a, Q a → P a) :
    Counted (fun a => P a ∧ ¬ Q a) (n - m) ∧ m ≤ n := by
  obtain ⟨l, hnd, hmem, rfl⟩ := h
  obtain ⟨l', hnd', hmem', rfl⟩ := h'
  have hperm : (l.filter (· ∈ l')).Perm l' := by
    rw [List.perm_ext_iff_of_nodup (hnd.filter _) hnd']
    intro a
    rw [List.mem_filter, decide_eq_true_eq, hmem, hmem']
    exact ⟨fun ha => ha.2, fun ha => ⟨hsub a ha, ha⟩⟩
  have hlen := List.length_eq_length_filter_add (l := l) (· ∈ l')
  rw [hperm.length_eq] at hlen
  refine ⟨⟨l.filter (fun a => !decide (a ∈ l')), hnd.filter _, fun a => ?_, by omega⟩, by omega⟩
  have hdecide : (!decide (a ∈ l')) = true ↔ ¬ Q a := by
    rw [← hmem']
    simp
  rw [List.mem_filter, hmem, hdecide]

theorem Counted.lt [DecidableEq α] (h : Counted P n) (h' : Counted Q m) (hsub : ∀ a, Q a → P a)
    {x : α} (hx : P x) (hno : ¬ Q x) : m < n := by
  obtain ⟨hdiff, hle⟩ := h.diff h' hsub
  have hone := hdiff.length_le (List.nodup_singleton x) fun a ha => by
    rw [List.mem_singleton.1 ha]
    exact ⟨hx, hno⟩
  rw [List.length_singleton] at hone
  omega

end XPerl.Framework

/-! Lists without their later repeats, and how they are built piece by piece. -/

namespace XPerl.Framework.Distinct

variable {α : Type} [DecidableEq α]

theorem eraseDups_filter (p : α → Bool) (l : List α) :
    (l.filter p).eraseDups = l.eraseDups.filter p := by
  generalize hn : l.length = n
  induction n using Nat.strong_induction_on generalizing l with
  | _ n ih =>
    cases l with
    | nil => rfl
    | cons a l =>
      have hless (q : α → Bool) : (l.filter q).length < n := by
        have hle := List.length_filter_le q l
        rw [List.length_cons] at hn
        omega
      rw [List.eraseDups_cons]
      by_cases ha : p a = true
      · rw [List.filter_cons_of_pos ha, List.filter_cons_of_pos ha, List.eraseDups_cons,
          ← ih _ (hless _) _ rfl, List.filter_filter, List.filter_filter]
        simp only [Bool.and_comm]
      · have hskip : (l.filter fun b => !b == a).filter p = l.filter p := by
          rw [List.filter_filter]
          apply List.filter_congr
          intro b hb
          cases hp : p b with
          | false => rfl
          | true =>
            have hne : b ≠ a := by
              rintro rfl
              exact ha hp
            simp [hne]
        rw [List.filter_cons_of_neg ha, List.filter_cons_of_neg ha, ← ih _ (hless _) _ rfl, hskip]

theorem nodup_eraseDups (l : List α) : l.eraseDups.Nodup := by
  generalize hn : l.length = n
  induction n using Nat.strong_induction_on generalizing l with
  | _ n ih =>
    cases l with
    | nil => exact List.nodup_nil
    | cons a l =>
      have hless : (l.filter fun b => !b == a).length < n := by
        have hle := List.length_filter_le (fun b => !b == a) l
        rw [List.length_cons] at hn
        omega
      rw [List.eraseDups_cons, List.nodup_cons]
      refine ⟨?_, ih _ hless _ rfl⟩
      rw [List.mem_eraseDups, List.mem_filter]
      simp

theorem eraseDups_append (l l' : List α) :
    (l ++ l').eraseDups = l.eraseDups ++ l'.eraseDups.filter (· ∉ l) := by
  rw [List.eraseDups_append, List.removeAll, eraseDups_filter]
  simp

theorem eraseDups_cons_of_not_mem {a : α} {l : List α} (h : a ∉ l) :
    (a :: l).eraseDups = a :: l.eraseDups := by
  have hkeep : (l.filter fun b => !b == a) = l := by
    rw [List.filter_eq_self]
    intro b hb
    have hne : b ≠ a := fun heq => h (heq ▸ hb)
    simp [hne]
  rw [List.eraseDups_cons, hkeep]

def addNew (r : List α × Finset α) (x : α) : List α × Finset α :=
  if x ∈ r.2 then r else (r.1 ++ [x], insert x r.2)

theorem foldl_addNew {l : List α} (h : l.Nodup) (r : List α × Finset α) :
    (l.foldl addNew r).1 = r.1 ++ l.filter (· ∉ r.2) ∧
      ∀ x, x ∈ (l.foldl addNew r).2 ↔ x ∈ r.2 ∨ x ∈ l := by
  induction l generalizing r with
  | nil => simp
  | cons a l ih =>
    obtain ⟨ha, hl⟩ := List.nodup_cons.1 h
    obtain ⟨hlist, htable⟩ := ih hl (addNew r a)
    rw [List.foldl_cons]
    by_cases hmem : a ∈ r.2
    · have hsame : addNew r a = r := if_pos hmem
      rw [hsame] at hlist htable ⊢
      refine ⟨by rw [hlist]; simp [hmem], fun x => ?_⟩
      rw [htable, List.mem_cons]
      constructor
      · exact Or.imp_right Or.inr
      · rintro (hx | rfl | hx)
        · exact Or.inl hx
        · exact Or.inl hmem
        · exact Or.inr hx
    · have hnew : addNew r a = (r.1 ++ [a], insert a r.2) := if_neg hmem
      rw [hnew] at hlist htable ⊢
      refine ⟨?_, fun x => ?_⟩
      · have hrest : l.filter (· ∉ insert a r.2) = l.filter (· ∉ r.2) := by
          apply List.filter_congr
          intro x hx
          have hne : x ≠ a := fun heq => ha (heq ▸ hx)
          simp [hne]
        rw [hlist, hrest]
        simp [hmem]
      · rw [htable, Finset.mem_insert, List.mem_cons]
        tauto

end XPerl.Framework.Distinct
