import Mathlib.Algebra.Order.Ring.Int
import XPerl.ThreadQueue.Queue

/-! `Thread::Semaphore`: a count that threads share. -/

namespace XPerl.ThreadSemaphore

open XPerl.Framework.Monitor
open XPerl.ThreadQueue (Scalar Arg)

/-- Why a call dies. -/
inductive Croak where
  | initializer (text : String)
  | argument (method text : String)
deriving DecidableEq

def Croak.text : Croak → String
  | .initializer text => "Semaphore initializer is not an integer: " ++ text
  | .argument method text =>
    "Argument to semaphore method '" ++ method ++ "' is not a positive integer: " ++ text

def new : Arg → Except Croak Int
  | .omitted => .ok 1
  | .undef => .error (.initializer "undef")
  | .given arg =>
    if arg.looksLikeNumber ∧ arg.value.den = 1 then .ok arg.value.num
    else .error (.initializer arg.text)

/-- A positive integer. -/
structure Amount where
  value : Int
  pos : 1 ≤ value

/-- `$validate_arg`, where the argument may be left out. -/
def validateArg (method : String) : Arg → Except Croak Amount
  | .omitted => .ok ⟨1, Int.le_refl 1⟩
  | .undef => .error (.argument method "undef")
  | .given arg =>
    if h : arg.looksLikeNumber ∧ arg.value.den = 1 ∧ 1 ≤ arg.value.num then
      .ok ⟨arg.value.num, h.2.2⟩
    else .error (.argument method arg.text)

/-- A call whose arguments have passed; they are checked before the lock is taken. -/
inductive Call where
  | down (dec : Amount)
  | downNb (dec : Amount)
  | downForce (dec : Amount)
  | downTimed (dec : Amount)
  | up (inc : Amount)

/-- What a call returns: `done` where the value means nothing. -/
inductive Answer where
  | done
  | took (ok : Bool)
deriving DecidableEq

abbrev Run := Progress Int Answer

/-- `cond_wait($$sema) until ($$sema >= $dec); $$sema -= $dec` -/
def downLoop (count : Int) (dec : Amount) (answer : Answer) : Run :=
  if dec.value ≤ count then .finish answer (count - dec.value) false else .wait

def downNb (count : Int) (dec : Amount) : Run :=
  let ok := decide (dec.value ≤ count)
  .finish (.took ok) (if ok then count - dec.value else count) false

/-- `($$sema += $inc) > 0 and cond_broadcast($$sema)` -/
def up (count : Int) (inc : Amount) : Run :=
  .finish .done (count + inc.value) (0 < count + inc.value)

def start : Call → Int → Run
  | .down dec, count => downLoop count dec .done
  | .downNb dec, count => downNb count dec
  | .downForce dec, count => .finish .done (count - dec.value) false
  | .downTimed dec, count => downLoop count dec (.took true)
  | .up inc, count => up count inc

/-- A wait that timed out ends `down_timed` without another look at the count. -/
def resume : Call → Bool → Int → Run
  | .downTimed _, true, count => .finish (.took false) count false
  | call, _, count => start call count

def semaphoreCalls : Calls Int Call Answer := ⟨start, resume⟩

section Effects

/-- A call as one step of the count. -/
inductive Atomic : Call → Int → Answer → Int → Prop where
  | down {dec : Amount} {count : Int} : dec.value ≤ count →
      Atomic (.down dec) count .done (count - dec.value)
  | downForce {dec : Amount} {count : Int} :
      Atomic (.downForce dec) count .done (count - dec.value)
  | took {call : Call} {dec : Amount} {count : Int} : call = .downNb dec ∨ call = .downTimed dec →
      dec.value ≤ count → Atomic call count (.took true) (count - dec.value)
  | left {call : Call} {dec : Amount} {count : Int} :
      (call = .downNb dec ∧ count < dec.value) ∨ call = .downTimed dec →
      Atomic call count (.took false) count
  | up {inc : Amount} {count : Int} : Atomic (.up inc) count .done (count + inc.value)

/-- What a committed call adds to the count. -/
def change : Call × Answer → Int
  | (.up inc, _) => inc.value
  | (_, .took false) => 0
  | (.down dec, _) => -dec.value
  | (.downNb dec, _) => -dec.value
  | (.downForce dec, _) => -dec.value
  | (.downTimed dec, _) => -dec.value

/-- What the loop of a call waits for. -/
def Met : Call → Int → Prop
  | .down dec, count => dec.value ≤ count
  | .downTimed dec, count => dec.value ≤ count
  | _, _ => False

variable {call : Call} {count count' : Int} {answer : Answer} {signals : Bool}

theorem start_atomic (h : start call count = .finish answer count' signals) :
    Atomic call count answer count' := by
  cases call with
  | down dec =>
    rw [start, downLoop] at h
    split at h
    · rename_i hle
      cases h
      exact .down hle
    · cases h
  | downNb dec =>
    cases h
    by_cases hle : dec.value ≤ count
    · simp only [hle, decide_true, if_true]
      exact .took (.inl rfl) hle
    · simp only [hle, decide_false, Bool.false_eq_true, if_false]
      exact .left (.inl ⟨rfl, Int.not_le.1 hle⟩)
  | downForce dec =>
    cases h
    exact .downForce
  | downTimed dec =>
    rw [start, downLoop] at h
    split at h
    · rename_i hle
      cases h
      exact .took (.inr rfl) hle
    · cases h
  | up inc =>
    cases h
    exact .up

theorem resume_atomic {timedOut : Bool}
    (h : resume call timedOut count = .finish answer count' signals) :
    Atomic call count answer count' := by
  unfold resume at h
  split at h
  · cases h
    exact .left (.inr rfl)
  · exact start_atomic h

theorem progress_atomic {pc : Pc Call Answer}
    (h : pc.progress semaphoreCalls count = some (call, .finish answer count' signals)) :
    Atomic call count answer count' := by
  cases pc with
  | inside call' =>
    obtain ⟨rfl, hstart⟩ := Prod.mk.inj (Option.some.inj h)
    exact start_atomic hstart
  | rechecking call' timedOut =>
    obtain ⟨rfl, hresume⟩ := Prod.mk.inj (Option.some.inj h)
    exact resume_atomic hresume
  | _ => cases h

theorem Atomic.change_eq (h : Atomic call count answer count') :
    count' = count + change (call, answer) := by
  cases h with
  | down => exact Int.sub_eq_add_neg
  | downForce => exact Int.sub_eq_add_neg
  | took hcall =>
    rcases hcall with rfl | rfl
    · exact Int.sub_eq_add_neg
    · exact Int.sub_eq_add_neg
  | left hcall =>
    rcases hcall with ⟨rfl, -⟩ | rfl
    · exact (Int.add_zero _).symm
    · exact (Int.add_zero _).symm
  | up => rfl

theorem Atomic.nonneg (h : Atomic call count answer count') (hcount : 0 ≤ count)
    (hforce : ∀ dec, call ≠ .downForce dec) : 0 ≤ count' := by
  cases h with
  | down hle => omega
  | downForce => exact absurd rfl (hforce _)
  | took _ hle => omega
  | left => exact hcount
  | @up inc =>
    have hpos := inc.pos
    omega

theorem start_wait (h : start call count = .wait) : ¬ Met call count := by
  cases call with
  | down dec =>
    rw [start, downLoop] at h
    split at h
    · cases h
    · assumption
  | downTimed dec =>
    rw [start, downLoop] at h
    split at h
    · cases h
    · assumption
  | _ => cases h

theorem Atomic.silent (h : Atomic call count answer count')
    (hsignals : ∀ inc, call = .up inc → ¬ 0 < count') (other : Call) (hmet : Met other count') :
    Met other count := by
  have hle : count' ≤ count ∨ count' ≤ 0 := by
    cases h with
    | @down dec =>
      have hpos := dec.pos
      omega
    | @downForce dec =>
      have hpos := dec.pos
      omega
    | @took _ dec =>
      have hpos := dec.pos
      omega
    | left => exact .inl (Int.le_refl _)
    | up => exact .inr (Int.not_lt.1 (hsignals _ rfl))
  cases other with
  | down dec =>
    have hpos := dec.pos
    unfold Met at hmet ⊢
    omega
  | downTimed dec =>
    have hpos := dec.pos
    unfold Met at hmet ⊢
    omega
  | _ => exact hmet.elim

theorem semaphoreCalls_announces : Announces semaphoreCalls Met where
  wait pc state call h := by
    cases pc with
    | inside call' =>
      obtain ⟨rfl, hstart⟩ := Prod.mk.inj (Option.some.inj h)
      exact start_wait hstart
    | rechecking call' timedOut =>
      obtain ⟨rfl, hresume⟩ := Prod.mk.inj (Option.some.inj h)
      unfold semaphoreCalls resume at hresume
      dsimp only at hresume
      split at hresume
      · cases hresume
      · exact start_wait hresume
    | _ => cases h
  silent pc state call answer state' h := by
    refine (progress_atomic h).silent ?_
    rintro inc rfl
    have hup : up state inc = .finish answer state' false := by
      cases pc with
      | inside call' =>
        obtain ⟨rfl, hstart⟩ := Prod.mk.inj (Option.some.inj h)
        exact hstart
      | rechecking call' timedOut =>
        obtain ⟨rfl, hresume⟩ := Prod.mk.inj (Option.some.inj h)
        exact hresume
      | _ => cases h
    obtain ⟨-, rfl, hsignals⟩ := Progress.finish.inj hup
    exact of_decide_eq_false hsignals

end Effects

section Runs

variable {τ : Type} [DecidableEq τ] {s : System τ Int Call Answer}

omit [DecidableEq τ] in
theorem replay_count {first last : Int} {log : List (τ × Call × Answer)}
    (h : Replay Atomic first log last) :
    last = first + (log.map fun commit => change commit.2).sum ∧
      (0 ≤ first → (∀ commit ∈ log, ∀ dec, commit.2.1 ≠ .downForce dec) → 0 ≤ last) := by
  induction h with
  | nil => exact ⟨(Int.add_zero _).symm, fun h _ => h⟩
  | snoc _ hstep ih =>
    obtain ⟨hcount, hnonneg⟩ := ih
    constructor
    · rw [hstep.change_eq, hcount, List.map_append, List.sum_append, Int.add_assoc]
      simp
    · intro hfirst hforce
      have hbefore := fun commit hc => hforce commit (List.mem_append_left _ hc)
      exact hstep.nonneg (hnonneg hfirst hbefore)
        (hforce _ (List.mem_append_right _ List.mem_cons_self))

/-- No wakeup is lost: a thread that sleeps although there is enough for it is about to be woken, and
the threads come to rest only when each has finished or asks for more than there is. -/
theorem semaphore_wakes (first : Int) (program : τ → List Call)
    (h : BroadcastRun semaphoreCalls (initial first program) s) :
    Heard Met s.pc s.state ∧
      ((∃ label s', (∀ t timedOut, label ≠ .wake t timedOut) ∧
          BroadcastStep semaphoreCalls label s s') ∨
        ∀ t, (s.pc t = .outside ∧ s.todo t = []) ∨
          ∃ call, s.pc t = .waiting call ∧ ¬ Met call s.state) := by
  obtain ⟨hexclusive, hheard⟩ : Exclusive s ∧ Heard Met s.pc s.state := by
    refine h.invariant (I := fun s => Exclusive s ∧ Heard Met s.pc s.state)
      ⟨exclusive_initial first program, fun _ _ hpc => by cases hpc⟩ ?_
    rintro s label s' ⟨hexclusive, hheard⟩ hstep
    exact ⟨hexclusive.broadcastStep hstep, hheard.broadcastStep semaphoreCalls_announces hstep⟩
  refine ⟨hheard, ?_⟩
  by_cases hrest : ∀ t, (s.pc t).Rests (s.todo t)
  · right
    intro t
    have ht := hrest t
    cases hpc : s.pc t with
    | outside =>
      rw [hpc] at ht
      exact .inl ⟨rfl, ht⟩
    | waiting call =>
      refine .inr ⟨call, rfl, fun hmet => ?_⟩
      obtain ⟨u, answer, hu⟩ := hheard t call hpc hmet
      have hrests := hrest u
      rw [hu] at hrests
      exact hrests
    | _ =>
      rw [hpc] at ht
      exact ht.elim
  · left
    obtain ⟨t, ht⟩ := not_forall.1 hrest
    exact exists_broadcastStep hexclusive ht

/-- One thread takes what another puts there. -/
def takeAndPut (t : Fin 2) : List Call :=
  if t = 0 then [.down ⟨2, by decide⟩] else [.up ⟨2, by decide⟩]

/-- The one that sleeps is heard. -/
theorem semaphore_wakes_asleep :
    ∃ s : System (Fin 2) Int Call Answer, (∃ call, s.pc 0 = .waiting call) ∧
      Heard Met s.pc s.state := by
  have hbegin : BroadcastRun semaphoreCalls (initial 0 takeAndPut) _ :=
    .step .refl (.step (fun _ _ h => by cases h) (.begin (t := 0) rfl rfl))
  have hlock := hbegin.step (.step (fun _ _ h => by cases h) (.lock (t := 0) rfl rfl))
  have hrun := hlock.step (.step (fun _ _ h => by cases h) (.wait (t := 0) rfl))
  exact ⟨_, ⟨_, rfl⟩, (semaphore_wakes _ _ hrun).1⟩

end Runs

end XPerl.ThreadSemaphore
