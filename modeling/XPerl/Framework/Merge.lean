import Mathlib.Data.List.Nodup
import Mathlib.Data.List.Perm.Subperm
import Mathlib.Data.List.Infix

/-! Merging sequences: the first head that is in no tail goes next. -/

namespace XPerl.Framework

variable {α : Type} [DecidableEq α]

def Acceptable (seqs : List (List α)) (x : α) : Prop :=
  ∀ s ∈ seqs, x ∉ s.tail

instance (seqs : List (List α)) (x : α) : Decidable (Acceptable seqs x) :=
  inferInstanceAs (Decidable (∀ s ∈ seqs, x ∉ s.tail))

def firstAcceptable (seqs : List (List α)) : Option α :=
  (seqs.filterMap List.head?).find? (fun x => decide (Acceptable seqs x))

/-- A sequence once `x` is taken: its head goes when it is `x`. -/
def dropHead (x : α) (s : List α) : List α := if s.head? = some x then s.tail else s

/-- `Merges seqs m`: taking first acceptable heads uses up all sequences and gives `m`. -/
inductive Merges : List (List α) → List α → Prop where
  | done {seqs} (h : ∀ s ∈ seqs, s = []) : Merges seqs []
  | step {seqs x m} (hx : firstAcceptable seqs = some x)
      (hm : Merges (seqs.map (dropHead x)) m) : Merges seqs (x :: m)

/-- Some sequence is left and no head is acceptable. -/
def Stuck (seqs : List (List α)) : Prop :=
  (∃ s ∈ seqs, s ≠ []) ∧ firstAcceptable seqs = none

variable {seqs : List (List α)} {x : α} {s m : List α}

theorem firstAcceptable_spec (h : firstAcceptable seqs = some x) :
    Acceptable seqs x ∧ ∃ s ∈ seqs, s.head? = some x := by
  have hmem := List.mem_of_find?_eq_some h
  have hacc := List.find?_some h
  obtain ⟨s, hs, hhead⟩ := List.mem_filterMap.1 hmem
  exact ⟨of_decide_eq_true hacc, s, hs, hhead⟩

theorem dropHead_of_head (h : s.head? = some x) : dropHead x s = s.tail := by
  rw [dropHead, if_pos h]

theorem dropHead_of_not_head (h : s.head? ≠ some x) : dropHead x s = s := by
  rw [dropHead, if_neg h]

theorem dropHead_eq_erase (h : x ∉ s.tail) : dropHead x s = s.erase x := by
  cases s with
  | nil => rfl
  | cons y s =>
    by_cases hy : y = x
    · rw [dropHead_of_head (by rw [hy]; rfl), hy, List.erase_cons_head]
      rfl
    · rw [dropHead_of_not_head (by simpa using hy), List.erase_of_not_mem]
      intro hmem
      rcases List.mem_cons.1 hmem with heq | hmem
      · exact hy heq.symm
      · exact h hmem

theorem not_mem_dropHead (h : x ∉ s.tail) : x ∉ dropHead x s := by
  by_cases hhead : s.head? = some x
  · rw [dropHead_of_head hhead]
    exact h
  · rw [dropHead_of_not_head hhead]
    intro hmem
    cases s with
    | nil => cases hmem
    | cons y s =>
      rcases List.mem_cons.1 hmem with heq | hmem
      · exact hhead (by rw [heq]; rfl)
      · exact h hmem

theorem mem_dropHead {y : α} (hne : y ≠ x) : y ∈ dropHead x s ↔ y ∈ s := by
  by_cases hhead : s.head? = some x
  · rw [dropHead_of_head hhead]
    cases s with
    | nil => rfl
    | cons z s =>
      have hz : z = x := by simpa using hhead
      constructor
      · intro hmem
        exact List.mem_cons_of_mem _ hmem
      · intro hmem
        rcases List.mem_cons.1 hmem with heq | hmem
        · exact absurd (heq.trans hz) hne
        · exact hmem
  · rw [dropHead_of_not_head hhead]

theorem Merges.mem_iff (h : Merges seqs m) (y : α) :
    y ∈ m ↔ ∃ s ∈ seqs, y ∈ s := by
  induction h with
  | done hnil =>
    constructor
    · intro hmem
      cases hmem
    · rintro ⟨s, hs, hmem⟩
      rw [hnil s hs] at hmem
      cases hmem
  | @step seqs x m hx hm ih =>
    obtain ⟨hacc, t, ht, hhead⟩ := firstAcceptable_spec hx
    by_cases hy : y = x
    · rw [hy]
      exact ⟨fun _ => ⟨t, ht, List.mem_of_mem_head? hhead⟩, fun _ => List.mem_cons_self⟩
    · have hcons : y ∈ x :: m ↔ y ∈ m := by simp [hy]
      rw [hcons, ih]
      simp only [List.mem_map, exists_exists_and_eq_and, mem_dropHead hy]

theorem Merges.nodup (h : Merges seqs m) : m.Nodup := by
  induction h with
  | done hnil => exact List.nodup_nil
  | @step seqs x m hx hm ih =>
    obtain ⟨hacc, -⟩ := firstAcceptable_spec hx
    apply List.nodup_cons.2
    refine ⟨?_, ih⟩
    intro hmem
    obtain ⟨s, hs, hmem⟩ := (hm.mem_iff x).1 hmem
    obtain ⟨t, ht, rfl⟩ := List.mem_map.1 hs
    exact not_mem_dropHead (hacc t ht) hmem

theorem Merges.sublist (h : Merges seqs m) :
    ∀ s ∈ seqs, s.Sublist m := by
  induction h with
  | done hnil =>
    intro s hs
    rw [hnil s hs]
  | @step seqs x m hx hm ih =>
    intro s hs
    have hrest := ih _ (List.mem_map_of_mem hs)
    by_cases hhead : s.head? = some x
    · rw [dropHead_of_head hhead] at hrest
      cases s with
      | nil => exact List.nil_sublist _
      | cons y s =>
        have hy : y = x := by simpa using hhead
        rw [hy]
        exact hrest.cons_cons x
    · rw [dropHead_of_not_head hhead] at hrest
      exact hrest.cons x

theorem Merges.unique {m' : List α} (h : Merges seqs m)
    (h' : Merges seqs m') : m = m' := by
  induction h generalizing m' with
  | @done seqs hnil =>
    cases h' with
    | done => rfl
    | step hx hm =>
      obtain ⟨-, s, hs, hhead⟩ := firstAcceptable_spec hx
      rw [hnil s hs] at hhead
      cases hhead
  | @step seqs x m hx hm ih =>
    cases h' with
    | done hnil =>
      obtain ⟨-, s, hs, hhead⟩ := firstAcceptable_spec hx
      rw [hnil s hs] at hhead
      cases hhead
    | @step _ x' m'' hx' hm' =>
      have heq : x = x' := Option.some.inj (hx.symm.trans hx')
      subst heq
      rw [ih hm']

theorem firstAcceptable_isSome (hx : Acceptable seqs x)
    (hhead : ∃ s ∈ seqs, s.head? = some x) : ∃ y, firstAcceptable seqs = some y := by
  obtain ⟨s, hs, hhead⟩ := hhead
  apply Option.isSome_iff_exists.1
  apply List.find?_isSome.2
  exact ⟨x, List.mem_filterMap.2 ⟨s, hs, hhead⟩, decide_eq_true hx⟩

theorem exists_acceptable {w : List α} (hw : w.Nodup)
    (hsub : ∀ s ∈ seqs, s.Sublist w) (hleft : ∃ s ∈ seqs, s ≠ []) :
    ∃ x, firstAcceptable seqs = some x := by
  induction w with
  | nil =>
    obtain ⟨s, hs, hne⟩ := hleft
    exact absurd (List.sublist_nil.1 (hsub s hs)) hne
  | cons a w ih =>
    obtain ⟨ha, hw⟩ := List.nodup_cons.1 hw
    by_cases hin : ∃ s ∈ seqs, a ∈ s
    · obtain ⟨s, hs, hmem⟩ := hin
      have hacc : Acceptable seqs a := by
        intro t ht hmem
        have htail := (hsub t ht).tail
        exact ha (htail.subset hmem)
      apply firstAcceptable_isSome hacc
      refine ⟨s, hs, ?_⟩
      cases s with
      | nil => cases hmem
      | cons b s =>
        rcases List.mem_cons.1 hmem with heq | hmem
        · rw [heq]
          rfl
        · exact absurd hmem (hacc _ hs)
    · apply ih hw
      intro s hs
      rcases List.sublist_cons_iff.1 (hsub s hs) with hrest | ⟨t, ht, -⟩
      · exact hrest
      · refine absurd ⟨s, hs, ?_⟩ hin
        rw [ht]
        exact List.mem_cons_self

theorem exists_merges {w : List α} (hw : w.Nodup)
    (hsub : ∀ s ∈ seqs, s.Sublist w) : ∃ m, Merges seqs m := by
  induction hn : w.length generalizing seqs w with
  | zero =>
    refine ⟨[], Merges.done ?_⟩
    intro s hs
    have hnil := hsub s hs
    rw [List.length_eq_zero_iff.1 hn] at hnil
    exact List.sublist_nil.1 hnil
  | succ n ih =>
    by_cases hleft : ∃ s ∈ seqs, s ≠ []
    · obtain ⟨x, hx⟩ := exists_acceptable hw hsub hleft
      obtain ⟨hacc, t, ht, hhead⟩ := firstAcceptable_spec hx
      have hmem : x ∈ w := (hsub t ht).subset (List.mem_of_mem_head? hhead)
      have hlen : (w.erase x).length = n := by
        rw [List.length_erase_of_mem hmem, hn]
        rfl
      have hrest : ∀ s ∈ seqs.map (dropHead x), s.Sublist (w.erase x) := by
        intro s hs
        obtain ⟨t, ht, rfl⟩ := List.mem_map.1 hs
        rw [dropHead_eq_erase (hacc t ht)]
        exact (hsub t ht).erase x
      obtain ⟨m, hm⟩ := ih (hw.erase x) hrest hlen
      exact ⟨x :: m, Merges.step hx hm⟩
    · refine ⟨[], Merges.done ?_⟩
      intro s hs
      by_contra hne
      exact hleft ⟨s, hs, hne⟩

theorem not_merges_of_stuck (h : Stuck seqs) (m : List α) :
    ¬ Merges seqs m := by
  obtain ⟨⟨s, hs, hne⟩, hnone⟩ := h
  intro hm
  cases hm with
  | done hnil => exact hne (hnil s hs)
  | step hx => rw [hnone] at hx; cases hx

theorem merges_step_iff (hx : firstAcceptable seqs = some x)
    (m : List α) : Merges seqs m ↔ ∃ m', m = x :: m' ∧ Merges (seqs.map (dropHead x)) m' := by
  constructor
  · intro hm
    cases hm with
    | done hnil =>
      obtain ⟨-, s, hs, hhead⟩ := firstAcceptable_spec hx
      rw [hnil s hs] at hhead
      cases hhead
    | @step _ x' m' hx' hm' =>
      have heq : x' = x := Option.some.inj (hx'.symm.trans hx)
      subst heq
      exact ⟨m', rfl, hm'⟩
  · rintro ⟨m', rfl, hm'⟩
    exact Merges.step hx hm'

theorem merges_singleton (hs : s.Nodup) (isa : List α)
    (hisa : isa = s.head?.toList) : Merges [s, isa] s := by
  have hsub : ∀ t ∈ [s, isa], t.Sublist s := by
    intro t ht
    rcases List.mem_cons.1 ht with rfl | ht
    · exact List.Sublist.refl t
    · rw [List.mem_singleton.1 ht, hisa]
      cases s with
      | nil => exact List.nil_sublist _
      | cons a s => exact List.Sublist.cons_cons a (List.nil_sublist s)
  obtain ⟨m, hm⟩ := exists_merges hs hsub
  have hle : s.Sublist m := hm.sublist s List.mem_cons_self
  have hge : m ⊆ s := by
    intro x hx
    obtain ⟨t, ht, hmem⟩ := (hm.mem_iff x).1 hx
    exact (hsub t ht).subset hmem
  have hlen := (List.Nodup.subperm hm.nodup hge).length_le
  have heq := hle.eq_of_length_le hlen
  subst heq
  exact hm

end XPerl.Framework
