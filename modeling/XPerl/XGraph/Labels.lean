import XPerl.Framework.Exec
import XPerl.XGraph.Invariant

/-! The label registry: interning one label, and declaring a batch of them. -/

namespace XPerl.XGraph

open XPerl.Framework Exec

variable {g : Graph}

/-- A mutation leaves a graph in order, and never takes back an ID. -/
def Kept (g g' : Graph) : Prop := WF g' ∧ g.nextVertexId ≤ g'.nextVertexId

variable {E : XgError → Graph → Prop} {s : Str}

theorem wp_requireMutable (h : WF g) {Q : Unit → Graph → Prop} :
    wp xgRequireMutable g Q E ↔ Q () g := by
  simp [xgRequireMutable, xgRequireUsable, h.usable.1, h.usable.2]

theorem wp_normalizeName (value : Value) {Q : Option Str → Graph → Prop}
    (hQ : ∀ s, value = Value.ofNormalized s → Q s g)
    (hE : ∀ e, value ≠ .undef → E e g) : wp (xgNormalizeName value) g Q E := by
  cases value with
  | undef => exact hQ none rfl
  | ref => exact hE _ Value.noConfusion
  | dies => exact hE _ Value.noConfusion
  | str s => exact hQ (some s) rfl

theorem wp_normalizeLabel (value : Value) {Q : Option Str → Graph → Prop}
    (hQ : ∀ s, value = Value.ofNormalized s → Q s g)
    (hE : ∀ e, (∀ s, value ≠ .str s) → E e g) : wp (xgNormalizeLabel value) g Q E := by
  cases value with
  | ref => exact hE _ (fun _ => Value.noConfusion)
  | dies => exact hE _ (fun _ => Value.noConfusion)
  | undef => exact hQ none rfl
  | str s => exact hQ (some s) rfl

theorem wp_normalizeLabel_str (s : Str) {Q : Option Str → Graph → Prop} :
    wp (xgNormalizeLabel (.str s)) g Q E ↔ Q (some s) g := Iff.rfl

theorem wp_normalizeLabel_of (s : Option Str) {Q : Option Str → Graph → Prop} :
    wp (xgNormalizeLabel (Value.ofNormalized s)) g Q E ↔ Q s g := by
  cases s with
  | none => exact Iff.rfl
  | some s => exact Iff.rfl

def FreshLabel (g : Graph) (label : Value) : Prop :=
  ∃ s, label = .str s ∧ s ≠ [] ∧ g.labelIdsByName s = none

/-- What a call of `xg_label_id` answers and does. -/
inductive Interned (g : Graph) (label : Value) (declare : Int) : Nat → Graph → Prop where
  | unknown (hdeclare : declare < 0) : Interned g label declare 0 g
  | known {lid : Nat} (hpos : 0 < lid) (hlt : lid < g.labelsById.length)
      (hold : ¬ FreshLabel g label) : Interned g label declare lid g
  | fresh {s : Str} (hdeclare : ¬ declare < 0)
      (hstrict : ¬ (g.strictLabels = true ∧ declare = 0)) (hlabel : label = .str s) (hne : s ≠ [])
      (hnone : g.labelIdsByName s = none) (hlimit : g.labelsById.length ≤ maxLabelId) :
      Interned g label declare g.labelsById.length (g.internLabel s).touchNames

theorem Labels.reserved_lt (h : Labels g) : 2 < g.labelsById.length := by
  obtain ⟨rest, hrest⟩ := h.reserved
  rw [hrest]
  simp

theorem xgLabelId_spec (h : WF g) (label : Value) (declare : Int) :
    wp (xgLabelId label declare) g (fun lid g' => Interned g label declare lid g')
      (fun _ g' => g' = g ∧ (FreshLabel g label →
        g.strictLabels = true ∨ maxLabelId < g.labelsById.length)) := by
  have hreserved := h.labels.reserved_lt
  simp only [xgLabelId, xgRequireUsable, wp_bind, wp_get, wp_throwIf, h.usable.1]
  refine ⟨by simp, fun _ => wp_normalizeLabel label ?_ ?_⟩
  · intro s hlabel
    cases s with
    | none =>
      apply Interned.known (by omega) (by omega)
      intro hfresh
      obtain ⟨t, ht, -⟩ := hfresh
      rw [hlabel] at ht
      cases ht
    | some s =>
      cases s with
      | nil =>
        apply Interned.known (by omega) hreserved
        intro hfresh
        obtain ⟨t, ht, hne, -⟩ := hfresh
        rw [hlabel] at ht
        cases ht
        exact hne rfl
      | cons c s =>
        have hlabel' : label = .str (c :: s) := hlabel
        simp only [wp_bind, wp_get]
        cases hid : g.labelIdsByName (c :: s) with
        | some id =>
          have hget := (h.labels.inverse (c :: s) id).1 hid
          obtain ⟨hlt, -⟩ := List.getElem?_eq_some_iff.1 hget
          apply Interned.known (Nat.pos_of_ne_zero ?_) hlt ?_
          · intro hzero
            obtain ⟨rest, hrest⟩ := h.labels.reserved
            rw [hzero, hrest] at hget
            cases hget
          · intro hfresh
            obtain ⟨t, ht, -, hnone⟩ := hfresh
            rw [hlabel'] at ht
            cases ht
            rw [hid] at hnone
            cases hnone
        | none =>
          by_cases hdeclare : declare < 0
          · simp only [hdeclare, if_true, wp_pure]
            exact .unknown hdeclare
          · simp only [hdeclare, if_false, wp_bind, wp_throwIf, wp_modify, wp_pure]
            refine ⟨fun hstrict => ⟨trivial, fun _ => Or.inl hstrict.1⟩,
              fun hstrict => ⟨fun hlimit => ⟨trivial, fun _ => Or.inr hlimit⟩, fun hlimit => ?_⟩⟩
            exact .fresh hdeclare hstrict hlabel' (List.cons_ne_nil c s) hid
              (Nat.le_of_not_lt hlimit)
  · intro e hno
    refine ⟨rfl, ?_⟩
    rintro ⟨s, hs, -⟩
    exact absurd hs (hno s)

theorem Labels.intern (h : Labels g) (hnone : g.labelIdsByName s = none)
    (hlimit : g.labelsById.length ≤ maxLabelId) : Labels (g.internLabel s).touchNames where
  reserved := by
    obtain ⟨rest, hrest⟩ := h.reserved
    exact ⟨rest ++ [some s], by simp [Graph.touchNames, Graph.internLabel, hrest]⟩
  limit := by
    simp only [Graph.touchNames, Graph.internLabel, List.length_append, List.length_singleton]
    omega
  inverse := by
    intro t i
    simp only [Graph.touchNames, Graph.internLabel]
    by_cases hts : t = s
    · rw [hts, Function.update_self]
      constructor
      · intro hi
        rw [← Option.some.inj hi, List.getElem?_concat_length]
      · intro hget
        rcases Nat.lt_trichotomy i g.labelsById.length with hlt | heq | hgt
        · rw [List.getElem?_append_left hlt] at hget
          rw [(h.inverse s i).2 hget] at hnone
          cases hnone
        · rw [heq]
        · rw [List.getElem?_eq_none (by simp; omega)] at hget
          cases hget
    · rw [Function.update_of_ne hts, h.inverse]
      rcases Nat.lt_trichotomy i g.labelsById.length with hlt | heq | hgt
      · rw [List.getElem?_append_left hlt]
      · rw [heq, List.getElem?_concat_length, List.getElem?_eq_none (Nat.le_refl _)]
        constructor
        · intro hfalse
          cases hfalse
        · intro hget
          exact absurd (Option.some.inj (Option.some.inj hget)).symm hts
      · rw [List.getElem?_eq_none (by omega), List.getElem?_eq_none (by simp; omega)]

theorem internLabel_wf (h : WF g) (hnone : g.labelIdsByName s = none)
    (hlimit : g.labelsById.length ≤ maxLabelId) : WF (g.internLabel s).touchNames where
  usable := h.usable
  topology := h.topology.congr h.topology.outOk h.topology.inOk (fun _ => rfl) (fun _ => rfl)
    (fun _ hid => hid) (by simp [Graph.touchNames, Graph.internLabel]) rfl
  table := ⟨h.table.capacity, h.table.next, h.table.below, h.table.live⟩
  names := ⟨h.names.inverse, h.names.live⟩
  labels := h.labels.intern hnone hlimit

variable {declare : Int} {lid : Nat} {g' : Graph}

theorem Interned.wf {label : Value} (h : WF g)
    (hi : Interned g label declare lid g') : WF g' := by
  cases hi with
  | unknown => exact h
  | known => exact h
  | fresh _ _ _ _ hnone hlimit => exact internLabel_wf h hnone hlimit

theorem Interned.next {label : Value}
    (hi : Interned g label declare lid g') : g'.nextVertexId = g.nextVertexId := by
  cases hi <;> rfl

def Graph.isNew (g : Graph) (label : Option Str) : Prop :=
  ∃ s, label = some s ∧ s ≠ [] ∧ g.labelIdsByName s = none

theorem xgLabelId_declare (h : WF g) (label : Option Str)
    (hroom : g.isNew label → g.labelsById.length ≤ maxLabelId) :
    returns (xgLabelId (Value.ofNormalized label) 1) g fun _ g' =>
      ¬ g.isNew label ∧ g' = g ∨
        ∃ s, label = some s ∧ g.labelIdsByName s = none ∧ s ≠ [] ∧
          g' = (g.internLabel s).touchNames := by
  simp only [returns, xgLabelId, xgRequireUsable, wp_bind, wp_get, wp_throwIf, h.usable.1]
  refine ⟨by simp, fun _ => ?_⟩
  cases label with
  | none =>
    refine Or.inl ⟨?_, rfl⟩
    intro hnew
    obtain ⟨s, hs, -⟩ := hnew
    cases hs
  | some s =>
    cases s with
    | nil =>
      refine Or.inl ⟨?_, rfl⟩
      intro hnew
      obtain ⟨s, hs, hne, -⟩ := hnew
      exact hne (Option.some.inj hs).symm
    | cons c s =>
      have hvalue : Value.ofNormalized (some (c :: s)) = .str (c :: s) := rfl
      rw [hvalue, wp_normalizeLabel_str]
      simp only [wp_bind, wp_get]
      cases hid : g.labelIdsByName (c :: s) with
      | some id =>
        refine Or.inl ⟨?_, rfl⟩
        intro hnew
        obtain ⟨t, ht, -, hnone⟩ := hnew
        rw [← Option.some.inj ht, hid] at hnone
        cases hnone
      | none =>
        have hlimit := hroom ⟨c :: s, rfl, List.cons_ne_nil c s, hid⟩
        have hdeclare : ¬ ((1 : Int) < 0) := by decide
        simp only [hdeclare, if_false, wp_bind, wp_throwIf, wp_modify, wp_pure]
        refine ⟨fun hstrict => absurd hstrict.2 (by decide),
          fun _ => ⟨fun hfull => ?_, fun _ => ?_⟩⟩
        · exact absurd hfull (Nat.not_lt.2 hlimit)
        · exact Or.inr ⟨c :: s, rfl, hid, List.cons_ne_nil c s, rfl⟩

private theorem newNames_intern (g : Graph) (s : Str) (rest : List (Option Str))
    (batch : List Str) :
    newNames g rest (batch ++ [s]) = newNames (g.internLabel s).touchNames rest batch ++ [s] := by
  induction rest generalizing batch with
  | nil => rfl
  | cons label rest ih =>
    match label with
    | none => exact ih batch
    | some [] => exact ih batch
    | some (c :: t) =>
      have hiff : g.labelIdsByName (c :: t) = none ∧ (c :: t) ∉ batch ++ [s] ↔
          (g.internLabel s).touchNames.labelIdsByName (c :: t) = none ∧ (c :: t) ∉ batch := by
        by_cases hts : c :: t = s
        · simp [Graph.touchNames, Graph.internLabel, hts]
        · simp [Graph.touchNames, Graph.internLabel, hts]
      rw [newNames, newNames]
      by_cases hnew : g.labelIdsByName (c :: t) = none ∧ (c :: t) ∉ batch ++ [s]
      · rw [if_pos hnew, if_pos (hiff.1 hnew)]
        exact ih ((c :: t) :: batch)
      · rw [if_neg hnew, if_neg (fun h => hnew (hiff.2 h))]
        exact ih batch

private theorem newNames_old {label : Option Str} (hold : ¬ g.isNew label)
    (rest : List (Option Str)) : newNames g (label :: rest) [] = newNames g rest [] := by
  match label with
  | none => rfl
  | some [] => rfl
  | some (c :: s) =>
    rw [newNames, if_neg]
    intro hnew
    exact hold ⟨c :: s, rfl, List.cons_ne_nil c s, hnew.1⟩

private theorem newNames_new (hnone : g.labelIdsByName s = none) (hne : s ≠ [])
    (rest : List (Option Str)) : (newNames g (some s :: rest) []).length =
      (newNames (g.internLabel s).touchNames rest []).length + 1 := by
  match s with
  | [] => exact absurd rfl hne
  | c :: t =>
    rw [newNames, if_pos ⟨hnone, by simp⟩]
    have hintern := newNames_intern g (c :: t) rest []
    rw [List.nil_append] at hintern
    rw [hintern, List.length_append]
    rfl

private theorem declareAll_spec (labels : List (Option Str)) (h : WF g)
    (hroom : g.labelsById.length + (newNames g labels []).length ≤ maxLabelId + 1) :
    returns (labels.forM fun label => (fun _ => ()) <$> xgLabelId (Value.ofNormalized label) 1) g
      fun _ g' => WF g' ∧ g'.nextVertexId = g.nextVertexId := by
  induction labels generalizing g with
  | nil => exact ⟨h, rfl⟩
  | cons label labels ih =>
    have hfirst : g.isNew label → g.labelsById.length ≤ maxLabelId := by
      intro hnew
      obtain ⟨s, rfl, hne, hnone⟩ := hnew
      rw [newNames_new hnone hne] at hroom
      omega
    rw [List.forM_eq_forM, List.forM_cons, returns, wp_bind, wp_map]
    apply wp_mono (xgLabelId_declare h label hfirst)
    · intro lid g' hg'
      rcases hg' with ⟨hold, rfl⟩ | ⟨s, rfl, hnone, hne, rfl⟩
      · rw [newNames_old hold] at hroom
        exact ih h hroom
      · have hlimit := hfirst ⟨s, rfl, hne, hnone⟩
        rw [newNames_new hnone hne] at hroom
        apply ih (internLabel_wf h hnone hlimit)
        simp only [Graph.touchNames, Graph.internLabel, List.length_append, List.length_singleton]
          at hroom ⊢
        omega
    · intro e g' hfalse
      exact hfalse

private theorem wp_normalizeLabels (labels : List Value) {Q : List (Option Str) → Graph → Prop}
    (hQ : ∀ s, Q s g) (hE : ∀ e, E e g) :
    wp (labels.mapM xgNormalizeLabel) g Q E := by
  induction labels generalizing Q with
  | nil => exact hQ []
  | cons label labels ih =>
    rw [List.mapM_cons, wp_bind]
    apply wp_normalizeLabel label _ (fun e _ => hE e)
    intro s _
    rw [wp_bind]
    exact ih (fun rest => hQ (s :: rest))

theorem xgDeclareLabels_spec (h : WF g) (labels : List Value) :
    wp (xgDeclareLabels labels) g (fun _ g' => Kept g g') (fun _ g' => g' = g) := by
  rw [xgDeclareLabels, wp_bind, wp_requireMutable h, wp_ite]
  refine ⟨fun _ => ⟨h, Nat.le_refl _⟩, fun _ => ?_⟩
  rw [wp_bind]
  apply wp_normalizeLabels labels
  · intro normalized
    simp only [wp_bind, wp_get, wp_throwIf]
    refine ⟨fun _ => trivial, fun hroom => ?_⟩
    have hreserved := h.labels.reserved_lt
    apply wp_of_returns (declareAll_spec normalized h (by omega))
    intro _ g' hg'
    exact ⟨hg'.1, Nat.le_of_eq hg'.2.symm⟩
  · intro e
    rfl

end XPerl.XGraph
