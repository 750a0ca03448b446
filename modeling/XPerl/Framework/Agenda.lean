import Mathlib.Tactic.Common

/-! Loops that take one frame after another from a stack. -/

namespace XPerl.Framework.Agenda

variable {σ φ : Type} {step : φ → σ → σ × List φ} {f : φ} {fs gs rest : List φ} {s t u : σ}
  {n m : Nat}

/-- The loop, where a frame puts others in its place; none where the rounds do not suffice. -/
def run (step : φ → σ → σ × List φ) : Nat → List φ → σ → Option σ
  | _, [], s => some s
  | 0, _ :: _, _ => none
  | n + 1, f :: rest, s => run step n ((step f s).2 ++ rest) (step f s).1

/-- Frames and all that they put on the stack lead from one state to another. -/
inductive Clears (step : φ → σ → σ × List φ) : List φ → σ → σ → Prop
  | nil {s : σ} : Clears step [] s s
  | cons {f : φ} {fs : List φ} {s t u : σ} (hframe : Clears step (step f s).2 (step f s).1 t)
      (hrest : Clears step fs t u) : Clears step (f :: fs) s u

theorem Clears.append (h : Clears step fs s t) (hrest : Clears step gs t u) :
    Clears step (fs ++ gs) s u := by
  induction h with
  | nil => exact hrest
  | cons hframe _ _ ih => exact .cons hframe (ih hrest)

theorem clears_append :
    Clears step (fs ++ gs) s u ↔ ∃ t, Clears step fs s t ∧ Clears step gs t u := by
  refine ⟨fun h => ?_, fun ⟨t, hfs, hgs⟩ => hfs.append hgs⟩
  induction fs generalizing s with
  | nil => exact ⟨s, .nil, h⟩
  | cons f fs ih =>
    cases h with
    | cons hframe hrest =>
      obtain ⟨t, hfs, hgs⟩ := ih hrest
      exact ⟨t, .cons hframe hfs, hgs⟩

theorem clears_singleton : Clears step [f] s t ↔ Clears step (step f s).2 (step f s).1 t := by
  refine ⟨fun h => ?_, fun h => .cons h .nil⟩
  cases h with
  | cons hframe hrest =>
    cases hrest
    exact hframe

theorem Clears.run_append (h : Clears step fs s t) :
    ∃ n, ∀ m rest, run step (n + m) (fs ++ rest) s = run step m rest t := by
  induction h with
  | nil => exact ⟨0, fun m rest => by rw [Nat.zero_add, List.nil_append]⟩
  | @cons f fs s t u _ _ ihframe ihrest =>
    obtain ⟨n, hn⟩ := ihframe
    obtain ⟨k, hk⟩ := ihrest
    refine ⟨n + k + 1, fun m rest => ?_⟩
    rw [show n + k + 1 + m = n + (k + m) + 1 by omega, List.cons_append, run, hn, hk]

theorem clears_of_run (h : run step n fs s = some t) : Clears step fs s t := by
  induction n generalizing fs s with
  | zero =>
    cases fs with
    | nil =>
      cases h
      exact .nil
    | cons f fs => cases h
  | succ n ih =>
    cases fs with
    | nil =>
      cases h
      exact .nil
    | cons f fs =>
      obtain ⟨u, hframe, hrest⟩ := clears_append.1 (ih h)
      exact .cons hframe hrest

theorem exists_run_iff : (∃ n, run step n fs s = some t) ↔ Clears step fs s t := by
  refine ⟨fun ⟨n, h⟩ => clears_of_run h, fun h => ?_⟩
  obtain ⟨n, hn⟩ := h.run_append
  have hrun := hn 0 []
  rw [List.append_nil] at hrun
  exact ⟨n + 0, by rw [hrun, run]⟩

end XPerl.Framework.Agenda
