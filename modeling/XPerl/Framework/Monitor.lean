import Mathlib.Data.List.Induction

/-! Threads that share an object under a lock with one condition variable. -/

namespace XPerl.Framework.Monitor

open Function

variable {τ σ κ ρ : Type}

/-- What a thread that holds the lock does up to its next wait, or to the end of its call. -/
inductive Progress (σ ρ : Type) where
  | wait
  | finish (answer : ρ) (state : σ) (signals : Bool)

/-- The calls of an object: from their start, and from the loop around their wait, which may have
timed out. -/
structure Calls (σ κ ρ : Type) where
  start : κ → σ → Progress σ ρ
  resume : κ → Bool → σ → Progress σ ρ

/-- Where a thread is in its call. -/
inductive Pc (κ ρ : Type) where
  | outside
  | locking (call : κ)
  | inside (call : κ)
  | waiting (call : κ)
  | woken (call : κ) (timedOut : Bool)
  | rechecking (call : κ) (timedOut : Bool)
  | signalling (answer : ρ)
  | returning (answer : ρ)

/-- The object, the lock and the threads, each with its calls to come; the log and the answers are
for the statements. -/
structure System (τ σ κ ρ : Type) where
  state : σ
  owner : Option τ
  pc : τ → Pc κ ρ
  todo : τ → List κ
  log : List (τ × κ × ρ)
  results : τ → List ρ

/-- Threads that have not begun. -/
def initial (state : σ) (todo : τ → List κ) : System τ σ κ ρ :=
  ⟨state, none, fun _ => .outside, todo, [], fun _ => []⟩

def Pc.progress (m : Calls σ κ ρ) (state : σ) : Pc κ ρ → Option (κ × Progress σ ρ)
  | .inside call => some (call, m.start call state)
  | .rechecking call timedOut => some (call, m.resume call timedOut state)
  | _ => none

inductive Label (τ : Type) where
  | begin (t : τ)
  | lock (t : τ)
  | run (t : τ)
  | signal (t : τ) (woken : Option τ)
  | wake (t : τ) (timedOut : Bool)
  | leave (t : τ)

variable [DecidableEq τ]

/-- One step of one thread. A signal wakes one waiting thread, none if nobody waits. -/
inductive Step (m : Calls σ κ ρ) : Label τ → System τ σ κ ρ → System τ σ κ ρ → Prop where
  | begin {s : System τ σ κ ρ} {t : τ} {call : κ} {rest : List κ} : s.pc t = .outside →
      s.todo t = call :: rest → Step m (.begin t) s
        { s with pc := update s.pc t (.locking call), todo := update s.todo t rest }
  | lock {s : System τ σ κ ρ} {t : τ} {call : κ} : s.owner = none → s.pc t = .locking call →
      Step m (.lock t) s { s with owner := some t, pc := update s.pc t (.inside call) }
  | relock {s : System τ σ κ ρ} {t : τ} {call : κ} {timedOut : Bool} : s.owner = none →
      s.pc t = .woken call timedOut → Step m (.lock t) s
        { s with owner := some t, pc := update s.pc t (.rechecking call timedOut) }
  | wait {s : System τ σ κ ρ} {t : τ} {call : κ} :
      (s.pc t).progress m s.state = some (call, .wait) →
      Step m (.run t) s { s with owner := none, pc := update s.pc t (.waiting call) }
  | finish {s : System τ σ κ ρ} {t : τ} {call : κ} {answer : ρ} {state : σ} {signals : Bool} :
      (s.pc t).progress m s.state = some (call, .finish answer state signals) →
      Step m (.run t) s { s with
        state := state
        pc := update s.pc t (if signals then .signalling answer else .returning answer)
        log := s.log ++ [(t, call, answer)] }
  | signal {s : System τ σ κ ρ} {t u : τ} {answer : ρ} {call : κ} : s.pc t = .signalling answer →
      s.pc u = .waiting call → Step m (.signal t (some u)) s
        { s with pc := update (update s.pc u (.woken call false)) t (.returning answer) }
  | signalNone {s : System τ σ κ ρ} {t : τ} {answer : ρ} : s.pc t = .signalling answer →
      (∀ u call, s.pc u ≠ .waiting call) →
      Step m (.signal t none) s { s with pc := update s.pc t (.returning answer) }
  | wake {s : System τ σ κ ρ} {t : τ} {call : κ} {timedOut : Bool} : s.pc t = .waiting call →
      Step m (.wake t timedOut) s { s with pc := update s.pc t (.woken call timedOut) }
  | leave {s : System τ σ κ ρ} {t : τ} {answer : ρ} : s.pc t = .returning answer →
      Step m (.leave t) s { s with
        owner := none
        pc := update s.pc t .outside
        results := update s.results t (s.results t ++ [answer]) }

/-- States of runs whose steps meet a condition on the state that they start from. -/
inductive Reaches (m : Calls σ κ ρ) (ok : Label τ → System τ σ κ ρ → Prop)
    (s₀ : System τ σ κ ρ) : System τ σ κ ρ → Prop where
  | refl : Reaches m ok s₀ s₀
  | step {s s' : System τ σ κ ρ} {label : Label τ} : Reaches m ok s₀ s → ok label s →
      Step m label s s' → Reaches m ok s₀ s'

variable {m : Calls σ κ ρ} {ok : Label τ → System τ σ κ ρ → Prop} {s₀ s s' : System τ σ κ ρ}
  {label : Label τ} {t : τ}

theorem Reaches.invariant {I : System τ σ κ ρ → Prop} (h : Reaches m ok s₀ s) (h₀ : I s₀)
    (hstep : ∀ s label s', I s → ok label s → Step m label s s' → I s') : I s := by
  induction h with
  | refl => exact h₀
  | step _ hok hs ih => exact hstep _ _ _ ih hok hs

def Pc.holds : Pc κ ρ → Prop
  | .inside _ => True
  | .rechecking _ _ => True
  | .signalling _ => True
  | .returning _ => True
  | _ => False

/-- The owner of the lock is the one thread that holds it. -/
def Exclusive (s : System τ σ κ ρ) : Prop := ∀ t, (s.pc t).holds ↔ s.owner = some t

omit [DecidableEq τ] in
theorem exclusive_initial (state : σ) (todo : τ → List κ) :
    Exclusive (initial state todo : System τ σ κ ρ) := fun _ =>
  ⟨fun hfalse => hfalse.elim, fun hnone => by cases hnone⟩

variable {pc : Pc κ ρ} {call : κ} {program : τ → List κ}

theorem Exclusive.keep (h : Exclusive s) (hpc : pc.holds ↔ (s.pc t).holds) :
    ∀ u, (update s.pc t pc u).holds ↔ s.owner = some u := by
  intro u
  by_cases hu : u = t
  · rw [hu, update_self, hpc]
    exact h t
  · rw [update_of_ne hu]
    exact h u

theorem Exclusive.take (h : Exclusive s) (hfree : s.owner = none) (hpc : pc.holds) :
    ∀ u, (update s.pc t pc u).holds ↔ some t = some u := by
  intro u
  by_cases hu : u = t
  · rw [hu, update_self]
    exact iff_of_true hpc rfl
  · rw [update_of_ne hu, h u, hfree]
    exact iff_of_false (fun hnone => by cases hnone) (fun hsome => hu (Option.some.inj hsome).symm)

theorem Exclusive.release (h : Exclusive s) (hholds : (s.pc t).holds)
    (hpc : ¬ pc.holds) : ∀ u, (update s.pc t pc u).holds ↔ none = some u := by
  intro u
  by_cases hu : u = t
  · rw [hu, update_self]
    exact iff_of_false hpc (fun hnone => by cases hnone)
  · rw [update_of_ne hu, h u, (h t).1 hholds]
    exact iff_of_false (fun hsome => hu (Option.some.inj hsome).symm) (fun hnone => by cases hnone)

variable {progress : Progress σ ρ} {P : κ → σ → Prop} {R : κ → σ → ρ → σ → Prop} {first : σ}

theorem holds_of_progress {state : σ}
    (h : pc.progress m state = some (call, progress)) : pc.holds := by
  cases pc with
  | inside call' => trivial
  | rechecking call' timedOut => trivial
  | _ => cases h

theorem Exclusive.step (h : Exclusive s) (hstep : Step m label s s') : Exclusive s' := by
  cases hstep with
  | begin hpc htodo =>
    apply h.keep
    rw [hpc]
    exact Iff.rfl
  | lock hfree hpc => exact h.take hfree trivial
  | relock hfree hpc => exact h.take hfree trivial
  | wait hprogress => exact h.release (holds_of_progress hprogress) id
  | @finish _ t call answer state signals hprogress =>
    apply h.keep
    refine iff_of_true ?_ (holds_of_progress hprogress)
    cases signals <;> trivial
  | @signal _ t u answer call hpc hwait =>
    have hwoken : Exclusive { s with pc := update s.pc u (.woken call false) } := by
      apply h.keep
      rw [hwait]
      exact Iff.rfl
    have hne : t ≠ u := by
      intro heq
      rw [heq, hwait] at hpc
      cases hpc
    apply hwoken.keep
    dsimp only
    rw [update_of_ne hne, hpc]
    exact Iff.rfl
  | signalNone hpc hnone =>
    apply h.keep
    rw [hpc]
    exact Iff.rfl
  | wake hpc =>
    apply h.keep
    rw [hpc]
    exact Iff.rfl
  | leave hpc =>
    apply h.release _ id
    rw [hpc]
    trivial

def Pc.pending : Pc κ ρ → List κ
  | .locking call => [call]
  | .inside call => [call]
  | .waiting call => [call]
  | .woken call _ => [call]
  | .rechecking call _ => [call]
  | _ => []

def Pc.unreturned : Pc κ ρ → List ρ
  | .signalling answer => [answer]
  | .returning answer => [answer]
  | _ => []

def commitsOf (t : τ) (log : List (τ × κ × ρ)) : List (κ × ρ) :=
  log.filterMap fun commit => if commit.1 = t then some commit.2 else none

/-- Every thread commits its calls once each, in their order, and returns the answers that it
committed. -/
structure Ordered (program : τ → List κ) (s : System τ σ κ ρ) : Prop where
  calls : ∀ t, (commitsOf t s.log).map Prod.fst ++ ((s.pc t).pending ++ s.todo t) = program t
  answers : ∀ t, (commitsOf t s.log).map Prod.snd = s.results t ++ (s.pc t).unreturned

theorem ordered_initial (state : σ) (program : τ → List κ) :
    Ordered program (initial state program : System τ σ κ ρ) := ⟨fun _ => rfl, fun _ => rfl⟩

theorem commitsOf_append_self (log : List (τ × κ × ρ)) (call : κ) (answer : ρ) :
    commitsOf t (log ++ [(t, call, answer)]) = commitsOf t log ++ [(call, answer)] := by
  rw [commitsOf, List.filterMap_append]
  simp [commitsOf]

theorem commitsOf_append_ne {u : τ} (h : t ≠ u) (log : List (τ × κ × ρ)) (call : κ) (answer : ρ) :
    commitsOf u (log ++ [(t, call, answer)]) = commitsOf u log := by
  rw [commitsOf, List.filterMap_append]
  simp [commitsOf, h]

theorem Ordered.move (h : Ordered program s) (t : τ)
    (hcalls : (commitsOf t s'.log).map Prod.fst ++ ((s'.pc t).pending ++ s'.todo t) = program t)
    (hanswers : (commitsOf t s'.log).map Prod.snd = s'.results t ++ (s'.pc t).unreturned)
    (hother : ∀ u, u ≠ t → commitsOf u s'.log = commitsOf u s.log ∧ s'.pc u = s.pc u ∧
      s'.todo u = s.todo u ∧ s'.results u = s.results u) : Ordered program s' := by
  constructor
  · intro u
    by_cases hu : u = t
    · rw [hu]
      exact hcalls
    · obtain ⟨hlog, hpc, htodo, -⟩ := hother u hu
      rw [hlog, hpc, htodo]
      exact h.calls u
  · intro u
    by_cases hu : u = t
    · rw [hu]
      exact hanswers
    · obtain ⟨hlog, hpc, -, hresults⟩ := hother u hu
      rw [hlog, hpc, hresults]
      exact h.answers u

theorem Ordered.keep (h : Ordered program s)
    (hsame : pc.pending = (s.pc t).pending ∧ pc.unreturned = (s.pc t).unreturned)
    (owner : Option τ) :
    Ordered program { s with owner := owner, pc := update s.pc t pc } := by
  apply h.move t
  · dsimp only
    rw [update_self, hsame.1]
    exact h.calls t
  · dsimp only
    rw [update_self, hsame.2]
    exact h.answers t
  · exact fun u hu => ⟨rfl, update_of_ne hu _ _, rfl, rfl⟩

theorem pending_of_progress {state : σ}
    (h : pc.progress m state = some (call, progress)) :
    pc.pending = [call] ∧ pc.unreturned = [] := by
  cases pc with
  | inside call' =>
    cases h
    exact ⟨rfl, rfl⟩
  | rechecking call' timedOut =>
    cases h
    exact ⟨rfl, rfl⟩
  | _ => cases h

theorem Ordered.step (h : Ordered program s) (hstep : Step m label s s') :
    Ordered program s' := by
  cases hstep with
  | @begin _ t call rest hpc htodo =>
    have hcalls := h.calls t
    have hanswers := h.answers t
    rw [hpc] at hcalls hanswers
    rw [htodo] at hcalls
    apply h.move t
    · dsimp only
      rw [update_self, update_self]
      exact hcalls
    · dsimp only
      rw [update_self]
      exact hanswers
    · exact fun u hu => ⟨rfl, update_of_ne hu _ _, update_of_ne hu _ _, rfl⟩
  | lock hfree hpc =>
    apply h.keep
    rw [hpc]
    exact ⟨rfl, rfl⟩
  | relock hfree hpc =>
    apply h.keep
    rw [hpc]
    exact ⟨rfl, rfl⟩
  | wait hprogress =>
    apply h.keep
    rw [(pending_of_progress hprogress).1, (pending_of_progress hprogress).2]
    exact ⟨rfl, rfl⟩
  | @finish _ t call answer state signals hprogress =>
    obtain ⟨hpending, hanswer⟩ := pending_of_progress hprogress
    have hdone : (if signals then Pc.signalling answer else Pc.returning answer :
        Pc κ ρ).pending = [] ∧ (if signals then Pc.signalling answer else Pc.returning answer :
        Pc κ ρ).unreturned = [answer] := by
      cases signals <;> exact ⟨rfl, rfl⟩
    have hcalls := h.calls t
    rw [hpending] at hcalls
    apply h.move t
    · dsimp only
      rw [update_self, hdone.1, commitsOf_append_self, List.map_append, ← hcalls, List.append_assoc]
      rfl
    · dsimp only
      rw [update_self, hdone.2, commitsOf_append_self, List.map_append, h.answers t, hanswer,
        List.append_nil]
      rfl
    · exact fun u hu => ⟨commitsOf_append_ne (Ne.symm hu) _ _ _, update_of_ne hu _ _, rfl, rfl⟩
  | @signal _ t u answer call hpc hwait =>
    have hwoken : Ordered program { s with pc := update s.pc u (.woken call false) } := by
      apply h.keep
      rw [hwait]
      exact ⟨rfl, rfl⟩
    have hne : t ≠ u := by
      intro heq
      rw [heq, hwait] at hpc
      cases hpc
    apply hwoken.keep
    dsimp only
    rw [update_of_ne hne, hpc]
    exact ⟨rfl, rfl⟩
  | signalNone hpc hnone =>
    apply h.keep
    rw [hpc]
    exact ⟨rfl, rfl⟩
  | wake hpc =>
    apply h.keep
    rw [hpc]
    exact ⟨rfl, rfl⟩
  | @leave _ t answer hpc =>
    have hcalls := h.calls t
    have hanswers := h.answers t
    rw [hpc] at hcalls hanswers
    apply h.move t
    · dsimp only
      rw [update_self]
      exact hcalls
    · dsimp only
      rw [update_self, update_self, hanswers]
      exact (List.append_nil _).symm
    · exact fun u hu => ⟨rfl, update_of_ne hu _ _, rfl, update_of_ne hu _ _⟩

def Pc.slept : Pc κ ρ → Option κ
  | .waiting call => some call
  | .woken call _ => some call
  | .rechecking call _ => some call
  | _ => none

def Remembered (P : κ → σ → Prop) (s : System τ σ κ ρ) : Prop :=
  ∀ t call, (s.pc t).slept = some call → P call s.state

theorem Remembered.move (h : Remembered P s)
    (hpc : ∀ call, pc.slept = some call → P call s.state) :
    ∀ u call, (update s.pc t pc u).slept = some call → P call s.state := by
  intro u call hslept
  by_cases hu : u = t
  · rw [hu, update_self] at hslept
    exact hpc call hslept
  · rw [update_of_ne hu] at hslept
    exact h u call hslept

theorem Remembered.step (h : Remembered P s)
    (hwait : ∀ call state, m.start call state = .wait → P call state)
    (hkeep : ∀ t call answer state signals, label = .run t →
      (s.pc t).progress m s.state = some (call, .finish answer state signals) →
      ∀ call', P call' s.state → P call' state)
    (hstep : Step m label s s') : Remembered P s' := by
  cases hstep with
  | begin hpc htodo => exact h.move fun call hslept => by cases hslept
  | lock hfree hpc => exact h.move fun call hslept => by cases hslept
  | @relock _ t call timedOut hfree hpc =>
    apply h.move
    intro call' hslept
    apply h t
    rw [hpc]
    exact hslept
  | @wait _ t call hprogress =>
    apply h.move
    intro call' hslept
    cases hpc : s.pc t with
    | inside call'' =>
      rw [hpc] at hprogress
      obtain ⟨rfl, hstart⟩ := Prod.mk.inj (Option.some.inj hprogress)
      cases hslept
      exact hwait _ _ hstart
    | rechecking call'' timedOut =>
      rw [hpc] at hprogress
      obtain ⟨rfl, -⟩ := Prod.mk.inj (Option.some.inj hprogress)
      apply h t
      rw [hpc]
      exact hslept
    | _ =>
      rw [hpc] at hprogress
      cases hprogress
  | @finish _ t call answer state signals hprogress =>
    intro u call' hslept
    apply hkeep t call answer state signals rfl hprogress
    have hmoved : ∀ u call, (update s.pc t (if signals then .signalling answer else
        .returning answer) u).slept = some call → P call s.state := by
      apply h.move
      intro call'' hslept'
      cases signals <;> cases hslept'
    exact hmoved u call' hslept
  | @signal _ t u answer call hpc hwaiting =>
    have hwoken : Remembered P { s with pc := update s.pc u (.woken call false) } := by
      apply h.move
      intro call' hslept
      apply h u
      rw [hwaiting]
      exact hslept
    exact hwoken.move fun call' hslept => by cases hslept
  | signalNone hpc hnone => exact h.move fun call hslept => by cases hslept
  | @wake _ t call timedOut hpc =>
    apply h.move
    intro call' hslept
    apply h t
    rw [hpc]
    exact hslept
  | leave hpc => exact h.move fun call hslept => by cases hslept

/-- The log, as one sequence of atomic steps of the object. -/
inductive Replay (R : κ → σ → ρ → σ → Prop) (first : σ) : List (τ × κ × ρ) → σ → Prop where
  | nil : Replay R first [] first
  | snoc {log : List (τ × κ × ρ)} {state state' : σ} {t : τ} {call : κ} {answer : ρ} :
      Replay R first log state → R call state answer state' →
      Replay R first (log ++ [(t, call, answer)]) state'

omit [DecidableEq τ] in
theorem Replay.split {last : σ} {before after : List (τ × κ × ρ)} {answer : ρ}
    (h : Replay R first (before ++ (t, call, answer) :: after) last) :
    ∃ state state', Replay R first before state ∧ R call state answer state' ∧
      Replay R state' after last := by
  induction after using List.reverseRecOn generalizing last with
  | nil =>
    generalize hlog : before ++ [(t, call, answer)] = log at h
    cases h with
    | nil => exact absurd hlog (List.append_ne_nil_of_right_ne_nil _ (List.cons_ne_nil _ _))
    | @snoc log' state _ t' call' answer' hreplay hstep =>
      obtain ⟨hbefore, hcommit⟩ := List.append_inj' hlog rfl
      cases hcommit
      subst hbefore
      exact ⟨state, last, hreplay, hstep, .nil⟩
  | append_singleton after commit ih =>
    generalize hlog : before ++ (t, call, answer) :: (after ++ [commit]) = log at h
    cases h with
    | nil => exact absurd hlog (List.append_ne_nil_of_right_ne_nil _ (List.cons_ne_nil _ _))
    | @snoc log' state _ t' call' answer' hreplay hstep =>
      rw [← List.cons_append, ← List.append_assoc] at hlog
      obtain ⟨hfront, hcommit⟩ := List.append_inj' hlog rfl
      cases hcommit
      subst hfront
      obtain ⟨state₁, state₂, hbefore, hmid, hafter⟩ := ih hreplay
      exact ⟨state₁, state₂, hbefore, hmid, hafter.snoc hstep⟩

theorem Replay.step (h : Replay R first s.log s.state)
    (hcommit : ∀ t call answer state signals, label = .run t →
      (s.pc t).progress m s.state = some (call, .finish answer state signals) →
      R call s.state answer state)
    (hstep : Step m label s s') : Replay R first s'.log s'.state := by
  cases hstep with
  | finish hprogress => exact h.snoc (hcommit _ _ _ _ _ rfl hprogress)
  | _ => exact h

section Wakeups

/-- What the loops of the calls wait for, and that calls that change the object signal. -/
structure Lawful (m : Calls σ κ ρ) (met : κ → σ → Prop) : Prop where
  start_wait : ∀ call state, m.start call state = .wait → ¬ met call state
  resume_wait : ∀ call timedOut state, m.resume call timedOut state = .wait → ¬ met call state
  start_silent : ∀ call state answer state',
    m.start call state = .finish answer state' false → state' = state
  resume_silent : ∀ call timedOut state answer state',
    m.resume call timedOut state = .finish answer state' false → state' = state

variable {met : κ → σ → Prop}

def Sleeper (met : κ → σ → Prop) (s : System τ σ κ ρ) (t : τ) : Prop :=
  ∃ call, s.pc t = .waiting call ∧ met call s.state

def Pc.attends : Pc κ ρ → Prop
  | .woken _ _ => True
  | .rechecking _ _ => True
  | .signalling _ => True
  | _ => False

def Attended (met : κ → σ → Prop) (s : System τ σ κ ρ) : Prop :=
  (∃ t, Sleeper met s t) → ∃ t, (s.pc t).attends

/-- A woken thread that sleeps again or ends its call without a signal drops no wakeup: nobody
sleeps whose condition is met, or another thread has been woken. -/
def Passes (m : Calls σ κ ρ) (met : κ → σ → Prop) (label : Label τ) (s : System τ σ κ ρ) : Prop :=
  match label with
  | .run t => ∀ call timedOut, s.pc t = .rechecking call timedOut →
      (∃ answer state, m.resume call timedOut s.state = .finish answer state true) ∨
      (¬ ∃ u, Sleeper met s u) ∨ ∃ u, u ≠ t ∧ (s.pc u).attends
  | _ => True

/-- A thread wakes by itself. -/
def Unprompted (label : Label τ) : Prop :=
  match label with
  | .wake _ _ => True
  | _ => False

/-- Every thread that has not finished sleeps, and the condition of one of them is met. -/
def Stuck (met : κ → σ → Prop) (s : System τ σ κ ρ) : Prop :=
  (∀ t, (s.pc t = .outside ∧ s.todo t = []) ∨ ∃ call, s.pc t = .waiting call) ∧
    ∃ t, Sleeper met s t

omit [DecidableEq τ] in
theorem Attended.not_stuck (h : Attended met s) : ¬ Stuck met s := by
  intro hstuck
  obtain ⟨hasleep, hsleeper⟩ := hstuck
  obtain ⟨t, hattends⟩ := h hsleeper
  rcases hasleep t with ⟨hout, -⟩ | ⟨call, hwait⟩
  · rw [hout] at hattends
    exact hattends
  · rw [hwait] at hattends
    exact hattends

theorem Attended.move (h : Attended met s) {pc : Pc κ ρ} (owner : Option τ) (todo : τ → List κ)
    (log : List (τ × κ × ρ)) (results : τ → List ρ)
    (hsleep : ∀ call, pc = .waiting call → ¬ met call s.state)
    (hattends : (∃ u, Sleeper met s u) → (s.pc t).attends →
      pc.attends ∨ ∃ u, u ≠ t ∧ (s.pc u).attends) :
    Attended met { s with
      owner := owner, pc := update s.pc t pc, todo := todo, log := log, results := results } := by
  intro hsleeper
  have hbefore : ∃ u, Sleeper met s u := by
    obtain ⟨u, call, hpc, hmet⟩ := hsleeper
    by_cases hu : u = t
    · rw [hu] at hpc
      dsimp only at hpc
      rw [update_self] at hpc
      exact absurd hmet (hsleep call hpc)
    · dsimp only at hpc
      rw [update_of_ne hu] at hpc
      exact ⟨u, call, hpc, hmet⟩
  have hother : ∀ u, u ≠ t → (s.pc u).attends → ∃ v, (update s.pc t pc v).attends := by
    intro u hu hpc
    refine ⟨u, ?_⟩
    rw [update_of_ne hu]
    exact hpc
  obtain ⟨u, hpc⟩ := h hbefore
  by_cases hu : u = t
  · rw [hu] at hpc
    rcases hattends hbefore hpc with hself | ⟨v, hv, hpc'⟩
    · refine ⟨t, ?_⟩
      dsimp only
      rw [update_self]
      exact hself
    · exact hother v hv hpc'
  · exact hother u hu hpc

theorem Attended.step (h : Attended met s) (hlaw : Lawful m met) (hpasses : Passes m met label s)
    (hprompted : ¬ Unprompted label) (hstep : Step m label s s') : Attended met s' := by
  cases hstep with
  | begin hpc htodo =>
    apply h.move
    · intro call hwait
      cases hwait
    · intro _ hattends
      rw [hpc] at hattends
      exact hattends.elim
  | lock hfree hpc =>
    apply h.move
    · intro call hwait
      cases hwait
    · intro _ hattends
      rw [hpc] at hattends
      exact hattends.elim
  | relock hfree hpc =>
    apply h.move
    · intro call hwait
      cases hwait
    · intro _ _
      exact Or.inl trivial
  | @wait _ t call hprogress =>
    cases hpc : s.pc t with
    | inside call' =>
      rw [hpc] at hprogress
      obtain ⟨rfl, hwait⟩ := Prod.mk.inj (Option.some.inj hprogress)
      apply h.move
      · intro call'' heq
        cases heq
        exact hlaw.start_wait _ _ hwait
      · intro _ hattends
        rw [hpc] at hattends
        exact hattends.elim
    | rechecking call' timedOut =>
      rw [hpc] at hprogress
      obtain ⟨rfl, hwait⟩ := Prod.mk.inj (Option.some.inj hprogress)
      apply h.move
      · intro call'' heq
        cases heq
        exact hlaw.resume_wait _ _ _ hwait
      · intro hsleeper _
        rcases hpasses _ _ hpc with ⟨answer, state, hfinish⟩ | hnone | hother
        · rw [hwait] at hfinish
          cases hfinish
        · exact absurd hsleeper hnone
        · exact Or.inr hother
    | _ =>
      rw [hpc] at hprogress
      cases hprogress
  | @finish _ t call answer state signals hprogress =>
    cases signals with
    | true =>
      intro _
      refine ⟨t, ?_⟩
      dsimp only
      rw [update_self]
      trivial
    | false =>
      cases hpc : s.pc t with
      | inside call' =>
        rw [hpc] at hprogress
        obtain ⟨rfl, hfinish⟩ := Prod.mk.inj (Option.some.inj hprogress)
        have hstate := hlaw.start_silent _ _ _ _ hfinish
        subst hstate
        apply h.move
        · intro call'' heq
          cases heq
        · intro _ hattends
          rw [hpc] at hattends
          exact hattends.elim
      | rechecking call' timedOut =>
        rw [hpc] at hprogress
        obtain ⟨rfl, hfinish⟩ := Prod.mk.inj (Option.some.inj hprogress)
        have hstate := hlaw.resume_silent _ _ _ _ _ hfinish
        subst hstate
        apply h.move
        · intro call'' heq
          cases heq
        · intro hsleeper _
          rcases hpasses _ _ hpc with ⟨answer', state', hfinish'⟩ | hnone | hother
          · rw [hfinish] at hfinish'
            cases hfinish'
          · exact absurd hsleeper hnone
          · exact Or.inr hother
      | _ =>
        rw [hpc] at hprogress
        cases hprogress
  | @signal _ t u answer call hpc hwait =>
    have hne : u ≠ t := by
      intro heq
      rw [heq, hpc] at hwait
      cases hwait
    intro _
    refine ⟨u, ?_⟩
    dsimp only
    rw [update_of_ne hne, update_self]
    trivial
  | @signalNone _ t answer hpc hnone =>
    intro hsleeper
    obtain ⟨u, call, hwait, -⟩ := hsleeper
    dsimp only at hwait
    by_cases hu : u = t
    · rw [hu, update_self] at hwait
      cases hwait
    · rw [update_of_ne hu] at hwait
      exact absurd hwait (hnone u call)
  | wake hpc => exact absurd trivial hprompted
  | leave hpc =>
    apply h.move
    · intro call hwait
      cases hwait
    · intro _ hattends
      rw [hpc] at hattends
      exact hattends.elim

theorem Reaches.not_stuck {todo : τ → List κ} {state : σ} (hlaw : Lawful m met)
    (h : Reaches m (fun label s => Passes m met label s ∧ ¬ Unprompted label)
      (initial state todo) s) : ¬ Stuck met s := by
  apply Attended.not_stuck
  apply h.invariant
  · intro hsleeper
    obtain ⟨t, call, hpc, -⟩ := hsleeper
    cases hpc
  · intro s label s' hattended hok hstep
    exact hattended.step hlaw hok.1 hok.2 hstep

end Wakeups

section Broadcasts

def Pc.roused : Pc κ ρ → Pc κ ρ
  | .waiting call => .woken call false
  | pc => pc

/-- One step of one thread, where a signal is a broadcast: it wakes every waiting thread. -/
inductive BroadcastStep (m : Calls σ κ ρ) : Label τ → System τ σ κ ρ → System τ σ κ ρ → Prop where
  | step {s s' : System τ σ κ ρ} {label : Label τ} : (∀ t u, label ≠ .signal t u) →
      Step m label s s' → BroadcastStep m label s s'
  | broadcast {s : System τ σ κ ρ} {t : τ} {answer : ρ} : s.pc t = .signalling answer →
      BroadcastStep m (.signal t none) s
        { s with pc := update (fun u => (s.pc u).roused) t (.returning answer) }

/-- States of runs from a first state. -/
inductive BroadcastRun (m : Calls σ κ ρ) (s₀ : System τ σ κ ρ) : System τ σ κ ρ → Prop where
  | refl : BroadcastRun m s₀ s₀
  | step {s s' : System τ σ κ ρ} {label : Label τ} : BroadcastRun m s₀ s →
      BroadcastStep m label s s' → BroadcastRun m s₀ s'

theorem BroadcastRun.invariant {I : System τ σ κ ρ → Prop} (h : BroadcastRun m s₀ s) (h₀ : I s₀)
    (hstep : ∀ s label s', I s → BroadcastStep m label s s' → I s') : I s := by
  induction h with
  | refl => exact h₀
  | step _ hs ih => exact hstep _ _ _ ih hs

theorem Exclusive.broadcastStep (h : Exclusive s) (hstep : BroadcastStep m label s s') :
    Exclusive s' := by
  cases hstep with
  | step _ hstep => exact h.step hstep
  | @broadcast _ t answer hpc =>
    have hroused : Exclusive { s with pc := fun u => (s.pc u).roused } := by
      intro u
      rw [← h u]
      dsimp only
      cases s.pc u <;> exact Iff.rfl
    apply hroused.keep
    dsimp only
    rw [hpc]
    exact Iff.rfl

theorem Ordered.broadcastStep {program : τ → List κ} (h : Ordered program s)
    (hstep : BroadcastStep m label s s') : Ordered program s' := by
  cases hstep with
  | step _ hstep => exact h.step hstep
  | @broadcast _ t answer hpc =>
    have hroused : Ordered program { s with pc := fun u => (s.pc u).roused } := by
      constructor
      · intro u
        rw [← h.calls u]
        dsimp only
        cases s.pc u <;> rfl
      · intro u
        rw [h.answers u]
        dsimp only
        cases s.pc u <;> rfl
    apply hroused.keep
    dsimp only
    rw [hpc]
    exact ⟨rfl, rfl⟩

theorem Replay.broadcastStep {R : κ → σ → ρ → σ → Prop} {first : σ}
    (h : Replay R first s.log s.state)
    (hcommit : ∀ pc call answer state signals, Pc.progress m s.state pc =
      some (call, .finish answer state signals) → R call s.state answer state)
    (hstep : BroadcastStep m label s s') : Replay R first s'.log s'.state := by
  cases hstep with
  | step _ hstep =>
    refine h.step (fun u call answer state signals _ hprogress => ?_) hstep
    exact hcommit _ _ _ _ _ hprogress
  | broadcast hpc => exact h

/-- What the loops of the calls wait for, and that a call that meets a condition broadcasts. -/
structure Announces (m : Calls σ κ ρ) (met : κ → σ → Prop) : Prop where
  wait : ∀ pc state call, Pc.progress m state pc = some (call, .wait) → ¬ met call state
  silent : ∀ pc state call answer state',
    Pc.progress m state pc = some (call, .finish answer state' false) →
      ∀ other, met other state' → met other state

variable {met : κ → σ → Prop} {pcs : τ → Pc κ ρ} {state state' : σ}

/-- Who sleeps although its condition is met is about to be woken. -/
def Heard (met : κ → σ → Prop) (pcs : τ → Pc κ ρ) (state : σ) : Prop :=
  ∀ t call, pcs t = .waiting call → met call state → ∃ u answer, pcs u = .signalling answer

theorem Heard.move (h : Heard met pcs state) {pc : Pc κ ρ}
    (hmet : ∀ call, met call state' → met call state)
    (hwait : ∀ call, pc = .waiting call → ¬ met call state')
    (hquiet : ∀ answer, pcs t ≠ .signalling answer) : Heard met (update pcs t pc) state' := by
  intro u call hpc hu
  by_cases hut : u = t
  · rw [hut, update_self] at hpc
    exact absurd hu (hwait call hpc)
  · rw [update_of_ne hut] at hpc
    obtain ⟨v, answer, hv⟩ := h u call hpc (hmet call hu)
    have hvt : v ≠ t := by
      rintro rfl
      exact hquiet answer hv
    exact ⟨v, answer, by rw [update_of_ne hvt, hv]⟩

theorem not_signalling_of_holds {pc : Pc κ ρ} {call : κ} {progress : Progress σ ρ}
    (h : pc.progress m state = some (call, progress)) (answer : ρ) : pc ≠ .signalling answer := by
  rintro rfl
  cases h

theorem Heard.broadcastStep (h : Heard met s.pc s.state) (hlaw : Announces m met)
    (hstep : BroadcastStep m label s s') : Heard met s'.pc s'.state := by
  cases hstep with
  | step hsignal hstep =>
    cases hstep with
    | begin hpc htodo => exact h.move (fun _ => id) nofun (by rw [hpc]; nofun)
    | lock hfree hpc => exact h.move (fun _ => id) nofun (by rw [hpc]; nofun)
    | relock hfree hpc => exact h.move (fun _ => id) nofun (by rw [hpc]; nofun)
    | @wait _ t call hprogress =>
      refine h.move (fun _ => id) ?_ (not_signalling_of_holds hprogress)
      rintro _ ⟨⟩
      exact hlaw.wait _ _ _ hprogress
    | @finish _ t call answer state signals hprogress =>
      cases signals with
      | true => exact fun _ _ _ _ => ⟨t, answer, update_self ..⟩
      | false =>
        exact h.move (hlaw.silent _ _ _ _ _ hprogress) nofun (not_signalling_of_holds hprogress)
    | signal => exact absurd rfl (hsignal _ _)
    | signalNone => exact absurd rfl (hsignal _ _)
    | wake hpc => exact h.move (fun _ => id) nofun (by rw [hpc]; nofun)
    | leave hpc => exact h.move (fun _ => id) nofun (by rw [hpc]; nofun)
  | @broadcast _ t answer hpc =>
    intro u call hu
    by_cases hut : u = t
    · dsimp only at hu
      rw [hut, update_self] at hu
      cases hu
    · dsimp only at hu
      rw [update_of_ne hut] at hu
      cases hpcu : s.pc u <;> rw [hpcu] at hu <;> cases hu

/-- A thread that has nothing left to do, or sleeps. -/
def Pc.Rests (todo : List κ) : Pc κ ρ → Prop
  | .outside => todo = []
  | .waiting _ => True
  | _ => False

theorem exists_broadcastStep (h : Exclusive s) (hbusy : ¬ (s.pc t).Rests (s.todo t)) :
    ∃ label s', (∀ u timedOut, label ≠ .wake u timedOut) ∧ BroadcastStep m label s s' := by
  have howner : ∀ u, (s.pc u).holds →
      ∃ label s', (∀ v timedOut, label ≠ .wake v timedOut) ∧ BroadcastStep m label s s' := by
    intro u hu
    have hruns : ∀ call progress, (s.pc u).progress m s.state = some (call, progress) →
        ∃ label s', (∀ v timedOut, label ≠ .wake v timedOut) ∧ BroadcastStep m label s s' := by
      intro call progress hprogress
      cases progress with
      | wait => exact ⟨.run u, _, nofun, .step nofun (.wait hprogress)⟩
      | finish answer state signals => exact ⟨.run u, _, nofun, .step nofun (.finish hprogress)⟩
    cases hpc : s.pc u with
    | inside call => exact hruns call _ (by rw [hpc]; rfl)
    | rechecking call timedOut => exact hruns call _ (by rw [hpc]; rfl)
    | signalling answer => exact ⟨.signal u none, _, nofun, .broadcast hpc⟩
    | returning answer => exact ⟨.leave u, _, nofun, .step nofun (.leave hpc)⟩
    | _ =>
      rw [hpc] at hu
      exact hu.elim
  by_cases hfree : s.owner = none
  · cases hpc : s.pc t with
    | outside =>
      rw [hpc] at hbusy
      obtain ⟨call, rest, htodo⟩ := List.exists_cons_of_ne_nil hbusy
      exact ⟨.begin t, _, nofun, .step nofun (.begin hpc htodo)⟩
    | locking call => exact ⟨.lock t, _, nofun, .step nofun (.lock hfree hpc)⟩
    | woken call timedOut => exact ⟨.lock t, _, nofun, .step nofun (.relock hfree hpc)⟩
    | waiting call =>
      rw [hpc] at hbusy
      exact absurd trivial hbusy
    | _ => exact howner t (by rw [hpc]; trivial)
  · obtain ⟨u, hu⟩ := Option.ne_none_iff_exists'.1 hfree
    exact howner u ((h u).2 hu)

end Broadcasts

end XPerl.Framework.Monitor
