import Mathlib.Data.List.Infix

/-! Codes whose words can be told apart wherever one starts. -/

namespace XPerl.Framework

/-- Code words that begin with a start letter, have no other one, and are told apart by what
begins with them. -/
structure Coding (α β : Type) where
  encode : α → List β
  start : β → Bool
  form : ∀ a, ∃ b bs, encode a = b :: bs ∧ start b = true ∧ ∀ x ∈ bs, start x = false
  decides : ∀ {a a' : α} {r r' : List β}, encode a ++ r = encode a' ++ r' → a = a'

namespace Coding

variable {α β : Type} (code : Coding α β) {s t u r : List α} {U R : List β}

/-- The words of a text one after the other. -/
def encodeAll (s : List α) : List β := s.flatMap code.encode

@[simp] theorem encodeAll_nil : code.encodeAll [] = [] := rfl

@[simp] theorem encodeAll_cons (a : α) (s : List α) :
    code.encodeAll (a :: s) = code.encode a ++ code.encodeAll s := List.flatMap_cons

@[simp] theorem encodeAll_append (s t : List α) :
    code.encodeAll (s ++ t) = code.encodeAll s ++ code.encodeAll t := List.flatMap_append

theorem encode_ne_nil (a : α) : code.encode a ≠ [] := by
  obtain ⟨b, bs, h, -, -⟩ := code.form a
  rw [h]
  exact List.cons_ne_nil b bs

theorem encodeAll_ne_nil (h : s ≠ []) : code.encodeAll s ≠ [] := by
  cases s with
  | nil => exact absurd rfl h
  | cons a s =>
    rw [encodeAll_cons]
    intro hnil
    exact code.encode_ne_nil a (List.append_eq_nil_iff.1 hnil).1

theorem prefix_iff : code.encodeAll s <+: code.encodeAll t ↔ s <+: t := by
  constructor
  · intro h
    induction s generalizing t with
    | nil => exact List.nil_prefix
    | cons a s ih =>
      obtain ⟨w, hw⟩ := h
      cases t with
      | nil =>
        rw [encodeAll_nil] at hw
        exact absurd (List.append_eq_nil_iff.1 hw).1 (code.encodeAll_ne_nil (by simp))
      | cons a' t =>
        rw [encodeAll_cons, encodeAll_cons, List.append_assoc] at hw
        obtain rfl := code.decides hw
        rw [List.cons_prefix_cons]
        exact ⟨rfl, ih ⟨w, List.append_cancel_left hw⟩⟩
  · intro h
    obtain ⟨v, rfl⟩ := h
    rw [encodeAll_append]
    exact List.prefix_append _ _

theorem encodeAll_injective (h : code.encodeAll s = code.encodeAll t) : s = t := by
  have hst : s <+: t := code.prefix_iff.1 (h ▸ List.prefix_rfl)
  have hts : t <+: s := code.prefix_iff.1 (h ▸ List.prefix_rfl)
  exact hst.eq_of_length_le hts.length_le

theorem split_at_start {b : β} (hb : code.start b = true)
    (h : code.encodeAll s = U ++ b :: R) :
    ∃ u r, s = u ++ r ∧ U = code.encodeAll u ∧ b :: R = code.encodeAll r := by
  induction s generalizing U with
  | nil => simp at h
  | cons a s ih =>
    cases U with
    | nil => exact ⟨[], a :: s, rfl, rfl, h.symm⟩
    | cons x U =>
      obtain ⟨b', bs, hencode, -, hrest⟩ := code.form a
      rw [encodeAll_cons, hencode, List.cons_append, List.cons_append, List.cons.injEq] at h
      obtain ⟨rfl, h⟩ := h
      rcases List.append_eq_append_iff.1 h with ⟨V, hU, hs⟩ | ⟨V, hbs, hR⟩
      · obtain ⟨u, r, rfl, rfl, hr⟩ := ih hs
        refine ⟨a :: u, r, rfl, ?_, hr⟩
        rw [encodeAll_cons, hencode, hU, List.cons_append]
      · cases V with
        | nil =>
          rw [List.append_nil] at hbs
          rw [List.nil_append] at hR
          refine ⟨[a], s, rfl, ?_, hR⟩
          rw [encodeAll_cons, hencode, hbs, encodeAll_nil, List.append_nil]
        | cons y V =>
          obtain ⟨rfl, -⟩ := List.cons.inj hR
          have hno := hrest b (by rw [hbs]; simp)
          rw [hb] at hno
          cases hno

theorem cut (h : U ++ R = code.encodeAll s) :
    ∃ u r q, s = u ++ r ∧ U = code.encodeAll u ++ q ∧ q ++ R = code.encodeAll r ∧
      ∀ a r', r = a :: r' → q.length < (code.encode a).length := by
  induction s generalizing U with
  | nil => exact ⟨[], [], U, rfl, rfl, h, by simp⟩
  | cons a s ih =>
    by_cases hshort : U.length < (code.encode a).length
    · refine ⟨[], a :: s, U, rfl, rfl, h, fun b r' heq => ?_⟩
      rw [← (List.cons.inj heq).1]
      exact hshort
    · rw [encodeAll_cons] at h
      have hprefix : code.encode a <+: U :=
        List.prefix_of_prefix_length_le ⟨_, h.symm⟩ ⟨_, rfl⟩ (Nat.not_lt.1 hshort)
      obtain ⟨V, rfl⟩ := hprefix
      rw [List.append_assoc] at h
      obtain ⟨u, r, q, rfl, rfl, hrest, hcut⟩ := ih (List.append_cancel_left h)
      refine ⟨a :: u, r, q, rfl, ?_, hrest, hcut⟩
      rw [encodeAll_cons, List.append_assoc]

end Coding

end XPerl.Framework
