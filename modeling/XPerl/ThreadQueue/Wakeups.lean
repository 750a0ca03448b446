import Mathlib.Data.Fintype.Basic
import Mathlib.Tactic.FinCases
import XPerl.ThreadQueue.Sequence

/-! One queue under many threads, and the wakeups of those that wait in it. -/

namespace XPerl.ThreadQueue

open XPerl.Framework.Monitor

variable {α τ : Type}

/-- The items that the commits of a log have put in, in their order. -/
def addedBy (log : List (τ × Call α × Answer α)) : List α :=
  log.flatMap fun commit => commit.2.1.added commit.2.2

/-- The items that the commits of a log have taken out, in their order. -/
def removedBy (log : List (τ × Call α × Answer α)) : List α :=
  log.flatMap fun commit => commit.2.1.removed commit.2.2

section Logs

variable {first last : Queue α} {log : List (τ × Call α × Answer α)}

theorem addedBy_append (log log' : List (τ × Call α × Answer α)) :
    addedBy (log ++ log') = addedBy log ++ addedBy log' := List.flatMap_append

theorem removedBy_append (log log' : List (τ × Call α × Answer α)) :
    removedBy (log ++ log') = removedBy log ++ removedBy log' := List.flatMap_append

theorem addedBy_singleton (t : τ) (call : Call α) (answer : Answer α) :
    addedBy [(t, call, answer)] = call.added answer := List.flatMap_singleton _ _

theorem removedBy_singleton (t : τ) (call : Call α) (answer : Answer α) :
    removedBy [(t, call, answer)] = call.removed answer := List.flatMap_singleton _ _

theorem replay_conserves (h : Replay Atomic first log last) :
    (first.queue ++ addedBy log).Perm (removedBy log ++ last.queue) := by
  induction h with
  | nil => exact (List.append_nil _).symm ▸ List.Perm.refl _
  | @snoc log q q' t call answer hreplay hstep ih =>
    rw [addedBy_append, removedBy_append, addedBy_singleton, removedBy_singleton]
    calc first.queue ++ (addedBy log ++ call.added answer)
        = (first.queue ++ addedBy log) ++ call.added answer := (List.append_assoc _ _ _).symm
      List.Perm _ ((removedBy log ++ q.queue) ++ call.added answer) := ih.append_right _
      _ = removedBy log ++ (q.queue ++ call.added answer) := List.append_assoc _ _ _
      List.Perm _ (removedBy log ++ (call.added answer ++ q.queue)) :=
        List.perm_append_comm.append_left _
      List.Perm _ (removedBy log ++ (call.removed answer ++ q'.queue)) :=
        hstep.effect.conserves.append_left _
      _ = removedBy log ++ call.removed answer ++ q'.queue := (List.append_assoc _ _ _).symm

theorem replay_fifo (h : Replay Atomic first log last)
    (hordinary : ∀ commit ∈ log, commit.2.1.Ordinary) :
    first.queue ++ addedBy log = removedBy log ++ last.queue := by
  induction h with
  | nil => exact List.append_nil _
  | @snoc log q q' t call answer hreplay hstep ih =>
    have hlog := ih fun commit hcommit => hordinary commit (List.mem_append_left _ hcommit)
    have hcall : call.Ordinary :=
      hordinary (t, call, answer) (List.mem_append_right _ (List.mem_singleton_self _))
    rw [addedBy_append, removedBy_append, addedBy_singleton, removedBy_singleton,
      ← List.append_assoc, hlog, List.append_assoc, hstep.effect.ordinary hcall,
      List.append_assoc]

theorem replay_frame (h : Replay Atomic first log last) :
    last.limit = first.limit ∧ (first.ended = true → last.ended = true) := by
  induction h with
  | nil => exact ⟨rfl, id⟩
  | snoc hreplay hstep ih =>
    obtain ⟨hlimit, hended⟩ := hstep.effect.frame
    exact ⟨hlimit.trans ih.1, fun hfirst => hended (ih.2 hfirst)⟩

theorem replay_added_of_ended (h : Replay Atomic first log last) (hended : first.ended = true) :
    addedBy log = [] := by
  induction h with
  | nil => rfl
  | snoc hreplay hstep ih =>
    rw [addedBy_append, addedBy_singleton, ih,
      hstep.effect.added_of_ended ((replay_frame hreplay).2 hended)]
    rfl

end Logs

/-- Steps where an `enqueue` that has waited and finds room finds the queue not ended. -/
def Unended (label : Label τ) (s : System τ (Queue α) (Call α) (Answer α)) : Prop :=
  match label with
  | .run t => ∀ items timedOut, s.pc t = .rechecking (.enqueue items) timedOut →
      s.state.full = false → s.state.ended = false
  | _ => True

section Runs

variable {s s' : System τ (Queue α) (Call α) (Answer α)} {label : Label τ}

theorem commit_atomic (hstarted : Remembered Started s) {t : τ} (hopen : Unended (.run t) s)
    {call : Call α} {answer : Answer α} {q : Queue α} {signals : Bool}
    (h : (s.pc t).progress (queueCalls α) s.state = some (call, .finish answer q signals)) :
    Atomic call s.state answer q := by
  cases hpc : s.pc t with
  | inside call' =>
    rw [hpc] at h
    obtain ⟨rfl, hstart⟩ := Prod.mk.inj (Option.some.inj h)
    exact start_atomic _ _ hstart
  | rechecking call' timedOut =>
    rw [hpc] at h
    obtain ⟨rfl, hresume⟩ := Prod.mk.inj (Option.some.inj h)
    have hcall : Started call' s.state := by
      apply hstarted t
      rw [hpc]
      rfl
    apply resume_atomic hcall _ hresume
    intro items heq
    subst heq
    apply hopen items timedOut hpc
    by_contra hfull
    have hwait : s.state.enqueueLoop items = .wait := by
      rw [Queue.enqueueLoop, if_pos (Bool.of_not_eq_false hfull)]
    cases hresume.symm.trans hwait
  | _ =>
    rw [hpc] at h
    cases h

variable [DecidableEq τ]

/-- What a run keeps. -/
structure Shared (first : Queue α) (program : τ → List (Call α))
    (s : System τ (Queue α) (Call α) (Answer α)) : Prop where
  exclusive : Exclusive s
  ordered : Ordered program s
  started : Remembered Started s
  replay : Replay Atomic first s.log s.state

theorem shared_initial (first : Queue α) (program : τ → List (Call α)) :
    Shared first program (initial first program) where
  exclusive := exclusive_initial first program
  ordered := ordered_initial first program
  started := fun _ _ hslept => by cases hslept
  replay := .nil

theorem Shared.step {first : Queue α} {program : τ → List (Call α)} (h : Shared first program s)
    (hopen : Unended label s) (hstep : Step (queueCalls α) label s s') :
    Shared first program s' := by
  have hcommit (t : τ) (call : Call α) (answer : Answer α) (q : Queue α) (signals : Bool)
      (hlabel : label = .run t) (hprogress : (s.pc t).progress (queueCalls α) s.state =
        some (call, .finish answer q signals)) : Atomic call s.state answer q := by
    subst hlabel
    exact commit_atomic h.started hopen hprogress
  constructor
  · exact h.exclusive.step hstep
  · exact h.ordered.step hstep
  · apply h.started.step (fun _ _ => started_of_wait) _ hstep
    intro t call answer q signals hlabel hprogress call' hstarted
    exact hstarted.of_limit (hcommit t call answer q signals hlabel hprogress).effect.frame.1
  · exact h.replay.step hcommit hstep

/-- In a run where no `enqueue` goes on after a wait on a queue that has been ended, the queue is one
sequence for all threads: their calls take effect one after another, each once, in its thread's order
and with the answer that it returns. Items leave as they came, none enters below an `end`, and an
`enqueue` puts its items in when the queue is below its limit. -/
theorem queue_is_one_sequence (first : Queue α) (program : τ → List (Call α))
    (h : Reaches (queueCalls α) Unended (initial first program) s) :
    Exclusive s ∧ Ordered program s ∧ Replay Atomic first s.log s.state ∧
      (first.queue ++ addedBy s.log).Perm (removedBy s.log ++ s.state.queue) ∧
      ((∀ commit ∈ s.log, commit.2.1.Ordinary) →
        first.queue ++ addedBy s.log = removedBy s.log ++ s.state.queue) ∧
      ∀ before t call answer after, s.log = before ++ (t, call, answer) :: after →
        (call = .endQueue → addedBy after = []) ∧
        ∀ items, call = .enqueue items → answer = .done → ∃ q, Replay Atomic first before q ∧
          (first.limit = 0 ∨ q.queue.length < first.limit) := by
  have hshared : Shared first program s :=
    h.invariant (shared_initial first program) fun _ _ _ hI hopen hstep => hI.step hopen hstep
  refine ⟨hshared.exclusive, hshared.ordered, hshared.replay, replay_conserves hshared.replay,
    replay_fifo hshared.replay, ?_⟩
  intro before t call answer after hlog
  have hreplay := hshared.replay
  rw [hlog] at hreplay
  obtain ⟨q, q', hbefore, hstep, hafter⟩ := hreplay.split
  constructor
  · intro hcall
    subst hcall
    apply replay_added_of_ended hafter
    cases hstep
    rfl
  · intro items hcall hanswer
    subst hcall hanswer
    refine ⟨q, hbefore, ?_⟩
    rw [← (replay_frame hbefore).1]
    exact hstep.room

/-- One thread fills a queue that another ends and a third drains. -/
def fillEndDrain (t : Fin 3) : List (Call Nat) :=
  if t = 0 then [.enqueue [2]] else if t = 1 then [.endQueue] else [.dequeue .omitted]

/-- With room for it, the item goes in at once. -/
theorem queue_is_one_sequence_room :
    ∃ s : System (Fin 3) (Queue Nat) (Call Nat) (Answer Nat),
      s.log = [(0, .enqueue [2], .done)] ∧ Replay Atomic ⟨[1], 2, false⟩ s.log ⟨[1, 2], 2, false⟩ := by
  have hbegin : Reaches (queueCalls Nat) Unended (initial ⟨[1], 2, false⟩ fillEndDrain) _ :=
    .step .refl (by trivial) (.begin (t := 0) rfl rfl)
  have hlock := hbegin.step (by trivial) (.lock (t := 0) rfl rfl)
  have hrun := hlock.step (by intro _ _ hpc; cases hpc) (.finish (t := 0) rfl)
  exact ⟨_, rfl, (queue_is_one_sequence _ _ hrun).2.2.1⟩

/-- An `enqueue` that waits for room adds its item to a queue whose `end` has returned. -/
theorem ended_queue_grows :
    ∃ s s' : System (Fin 3) (Queue Nat) (Call Nat) (Answer Nat),
      Reaches (queueCalls Nat) (fun _ _ => True) (initial ⟨[1], 1, false⟩ fillEndDrain) s ∧
        s.results 1 = [.done] ∧ s.state = ⟨[], 1, true⟩ ∧
        Step (queueCalls Nat) (.run 0) s s' ∧ s'.state = ⟨[2], 1, true⟩ ∧
        s'.log = [(1, .endQueue, .done), (2, .dequeue .omitted, .item (some 1)),
          (0, .enqueue [2], .done)] := by
  have h₁ : Reaches (queueCalls Nat) (fun _ _ => True) (initial ⟨[1], 1, false⟩ fillEndDrain) _ :=
    .step .refl trivial (.begin (t := 0) rfl rfl)
  have h₂ := h₁.step trivial (.lock (t := 0) rfl rfl)
  have h₃ := h₂.step trivial (.wait (t := 0) rfl)
  have h₄ := h₃.step trivial (.begin (t := 1) rfl rfl)
  have h₅ := h₄.step trivial (.lock (t := 1) rfl rfl)
  have h₆ := h₅.step trivial (.finish (t := 1) rfl)
  have h₇ := h₆.step trivial (.signal (t := 1) (u := 0) rfl rfl)
  have h₈ := h₇.step trivial (.leave (t := 1) rfl)
  have h₉ := h₈.step trivial (.begin (t := 2) rfl rfl)
  have h₁₀ := h₉.step trivial (.lock (t := 2) rfl rfl)
  have h₁₁ := h₁₀.step trivial (.finish (t := 2) rfl)
  have h₁₂ := h₁₁.step trivial (.signalNone (t := 2) rfl (by
    intro u call heq
    fin_cases u <;> cases heq))
  have h₁₃ := h₁₂.step trivial (.leave (t := 2) rfl)
  have h₁₄ := h₁₃.step trivial (.relock (t := 0) rfl rfl)
  exact ⟨_, _, h₁₄, rfl, rfl, .finish (t := 0) rfl, rfl, rfl⟩

end Runs

/-- What a call waits for: room for an `enqueue`, enough items or an end for a `dequeue`. -/
def Met (call : Call α) (q : Queue α) : Prop :=
  match call with
  | .enqueue _ => q.full = false
  | .dequeue count => count.count ≤ q.queue.length ∨ q.ended = true
  | .dequeueTimed _ count => count.count ≤ q.queue.length ∨ q.ended = true
  | _ => False

def Silent (q : Queue α) (run : Run α) : Prop :=
  ∀ answer q', run = .finish answer q' false → q' = q

theorem silent_wait (q : Queue α) : Silent q .wait := fun _ _ h => by cases h

theorem silent_same (q : Queue α) (answer : Answer α) (signals : Bool) :
    Silent q (.finish answer q signals) := by
  intro answer' q' h
  cases h
  rfl

theorem silent_signals (q q' : Queue α) (answer : Answer α) :
    Silent q (.finish answer q' true) := by
  intro answer' q'' h
  cases h

variable {q : Queue α}

theorem silent_ite {c : Prop} [Decidable c] {run run' : Run α} (h : Silent q run)
    (h' : Silent q run') : Silent q (if c then run else run') := by
  by_cases hc : c
  · rw [if_pos hc]
    exact h
  · rw [if_neg hc]
    exact h'

variable {body : Int → Run α} {count : Int} {timedOut : Bool} {call : Call α}

theorem silent_withCount (q : Queue α) (method : String) (arg : Arg)
    (h : ∀ count, Silent q (body count)) : Silent q (q.withCount method arg body) := by
  rw [Queue.withCount]
  cases q.validateCount method arg with
  | error error => exact silent_same q _ _
  | ok count => exact h count

theorem silent_withIndex (q : Queue α) (method : String) (default : Option Int) (arg : Arg)
    (h : ∀ index, Silent q (body index)) :
    Silent q (q.withIndex method default arg body) := by
  rw [Queue.withIndex]
  cases validateIndex method default arg with
  | error error => exact silent_same q _ _
  | ok index => exact h index

theorem silent_enqueueLoop (q : Queue α) (items : List α) : Silent q (q.enqueueLoop items) := by
  rw [Queue.enqueueLoop]
  by_cases hfull : q.full
  · rw [if_pos hfull]
    exact silent_wait q
  · rw [if_neg hfull]
    intro answer q' h
    obtain ⟨-, hq, hsignals⟩ := Progress.finish.inj h
    have hnil : q.queue ++ items = [] := by
      rw [decide_eq_false_iff_not, not_not] at hsignals
      exact List.length_eq_zero_iff.1 hsignals
    rw [← hq, hnil, (List.append_eq_nil_iff.1 hnil).1.symm]

theorem silent_dequeueNb (q : Queue α) (arg : Arg) : Silent q (q.dequeueNb arg) := by
  apply silent_withCount
  intro count
  apply silent_ite
  · exact silent_signals q _ _
  · exact silent_ite (silent_same q _ _) (silent_signals q _ _)

theorem silent_dequeueLoop (q : Queue α) (count : Int) : Silent q (q.dequeueLoop count) := by
  apply silent_ite
  · exact silent_wait q
  · apply silent_ite
    · exact silent_dequeueNb q _
    · apply silent_ite
      · exact silent_signals q _ _
      · exact silent_ite (silent_same q _ _) (silent_signals q _ _)

theorem silent_dequeueTimedLoop (q : Queue α) (count : Int) (timedOut : Bool) :
    Silent q (q.dequeueTimedLoop count timedOut) :=
  silent_ite (silent_wait q) (silent_dequeueNb q _)

theorem silent_start (call : Call α) (q : Queue α) :
    Silent q ((queueCalls α).start call q) := by
  cases call with
  | enqueue items => exact silent_ite (silent_same q _ _) (silent_enqueueLoop q items)
  | dequeue arg => exact silent_withCount q _ arg (silent_dequeueLoop q)
  | dequeueNb arg => exact silent_dequeueNb q arg
  | dequeueTimed timeout arg =>
    show Silent q (q.dequeueTimed timeout arg)
    rw [Queue.dequeueTimed]
    cases validateTimeout "dequeue_timed" timeout with
    | error error => exact silent_same q _ _
    | ok _ => exact silent_withCount q _ arg fun count => silent_dequeueTimedLoop q count false
  | peek index => exact silent_withIndex q _ _ index fun place => silent_same q _ _
  | pending => exact silent_ite (silent_same q _ _) (silent_same q _ _)
  | insert index items =>
    apply silent_ite
    · exact silent_same q _ _
    · apply silent_withIndex
      intro place
      exact silent_ite (silent_same q _ _) (silent_signals q _ _)
  | extract index count =>
    apply silent_withIndex
    intro place
    apply silent_withCount
    intro n
    apply silent_ite
    · apply silent_ite
      · exact silent_ite (silent_same q _ _) (silent_dequeueNb q _)
      · exact silent_signals q _ _
    · exact silent_signals q _ _
  | endQueue => exact silent_signals q _ _

theorem silent_resume (call : Call α) (timedOut : Bool) (q : Queue α) :
    Silent q ((queueCalls α).resume call timedOut q) := by
  cases call with
  | enqueue items => exact silent_enqueueLoop q items
  | dequeue arg => exact silent_dequeueLoop q arg.count
  | dequeueTimed timeout arg => exact silent_dequeueTimedLoop q arg.count timedOut
  | _ => exact silent_wait q

theorem dequeueNb_ne_wait (q : Queue α) (arg : Arg) : q.dequeueNb arg ≠ .wait := by
  rw [Queue.dequeueNb, Queue.withCount]
  cases q.validateCount "dequeue_nb" arg with
  | error error =>
    intro h
    cases h
  | ok count =>
    dsimp only
    split_ifs
    · intro h
      cases h
    · intro h
      cases h
    · intro h
      cases h

theorem enqueueLoop_wait {items : List α} (h : q.enqueueLoop items = .wait) :
    ¬ q.full = false := by
  intro hroom
  rw [Queue.enqueueLoop, hroom] at h
  cases h

theorem dequeueLoop_wait (h : q.dequeueLoop count = .wait) :
    ¬ (count ≤ q.queue.length ∨ q.ended = true) := by
  rw [Queue.dequeueLoop] at h
  by_cases hwait : q.queue.length < count ∧ ¬ q.ended
  · intro hready
    rcases hready with hlength | hended
    · omega
    · exact hwait.2 hended
  · rw [if_neg hwait] at h
    by_cases hended : q.ended
    · rw [if_pos hended] at h
      exact absurd h (dequeueNb_ne_wait q _)
    · rw [if_neg hended] at h
      split at h
      · cases h
      · split at h
        · cases h
        · cases h

theorem dequeueTimedLoop_wait
    (h : q.dequeueTimedLoop count timedOut = .wait) :
    ¬ (count ≤ q.queue.length ∨ q.ended = true) := by
  rw [Queue.dequeueTimedLoop] at h
  split_ifs at h with hwait
  · intro hready
    rcases hready with hlength | hended
    · omega
    · exact hwait.2.2 hended
  · exact absurd h (dequeueNb_ne_wait q _)

theorem resume_wait
    (h : (queueCalls α).resume call timedOut q = .wait) : ¬ Met call q := by
  cases call with
  | enqueue items => exact enqueueLoop_wait h
  | dequeue arg => exact dequeueLoop_wait h
  | dequeueTimed timeout arg => exact dequeueTimedLoop_wait h
  | _ => exact id

theorem start_wait (h : (queueCalls α).start call q = .wait) :
    ¬ Met call q := by
  have hstarted := started_of_wait h
  cases call with
  | enqueue items =>
    have hstart : q.enqueue items = .wait := h
    rw [Queue.enqueue] at hstart
    by_cases hended : q.ended
    · rw [if_pos hended] at hstart
      cases hstart
    · rw [if_neg hended] at hstart
      exact enqueueLoop_wait hstart
  | dequeue arg =>
    have hstart : q.dequeue arg = .wait := h
    rw [Queue.dequeue, Queue.withCount, hstarted] at hstart
    exact dequeueLoop_wait hstart
  | dequeueTimed timeout arg =>
    have hstart : q.dequeueTimed timeout arg = .wait := h
    rw [Queue.dequeueTimed, Queue.withCount, hstarted.1, hstarted.2] at hstart
    exact dequeueTimedLoop_wait hstart
  | _ => exact id

theorem queueCalls_lawful (α : Type) : Lawful (queueCalls α) Met where
  start_wait _ _ := start_wait
  resume_wait _ _ _ := resume_wait
  start_silent call q := silent_start call q
  resume_silent call timedOut q := silent_resume call timedOut q

/-- In a run without spurious wakeups where a woken thread goes back to sleep, or ends its call
without a signal, only when nobody sleeps whose condition is met or another thread has been woken,
the threads that have not finished never all sleep while the condition of one of them is met. -/
theorem no_lost_wakeup {τ : Type} [DecidableEq τ] (first : Queue α) (program : τ → List (Call α))
    {s : System τ (Queue α) (Call α) (Answer α)}
    (h : Reaches (queueCalls α) (fun label s => Passes (queueCalls α) Met label s ∧
      ¬ Unprompted label) (initial first program) s) : ¬ Stuck Met s :=
  h.not_stuck (queueCalls_lawful α)

/-- Two consumers, one for a pair of items and one for a single item, and a producer. -/
def pairSingleOne (t : Fin 3) : List (Call Nat) :=
  [[.dequeue (.given ⟨"2", 2, true⟩)], [.dequeue .omitted], [.enqueue [7]]].get t

/-- The consumer of a single item sleeps before the producer comes. -/
theorem no_lost_wakeup_asleep :
    ∃ s : System (Fin 3) (Queue Nat) (Call Nat) (Answer Nat),
      s.pc 1 = .waiting (.dequeue .omitted) ∧ ¬ Stuck Met s := by
  have hbegin : Reaches (queueCalls Nat) (fun label s => Passes (queueCalls Nat) Met label s ∧
      ¬ Unprompted label) (initial ⟨[], 0, false⟩ pairSingleOne) _ :=
    .step .refl (by exact ⟨trivial, id⟩) (.begin (t := 1) rfl rfl)
  have hlock := hbegin.step (by exact ⟨trivial, id⟩) (.lock (t := 1) rfl rfl)
  have hrun := hlock.step (by refine ⟨?_, id⟩; intro _ _ hpc; cases hpc) (.wait (t := 1) rfl)
  exact ⟨_, rfl, no_lost_wakeup _ _ hrun⟩

/-- The signal for one item goes to the consumer of a pair, which goes back to sleep, and nobody
wakes the other consumer. -/
theorem signal_is_lost :
    ∃ s : System (Fin 3) (Queue Nat) (Call Nat) (Answer Nat),
      Reaches (queueCalls Nat) (fun label _ => ¬ Unprompted label)
        (initial ⟨[], 0, false⟩ pairSingleOne) s ∧
        s.state = ⟨[7], 0, false⟩ ∧ Stuck Met s := by
  have h₁ : Reaches (queueCalls Nat) (fun label _ => ¬ Unprompted label)
      (initial ⟨[], 0, false⟩ pairSingleOne) _ :=
    .step .refl (by exact id) (.begin (t := 0) rfl rfl)
  have h₂ := h₁.step (by exact id) (.lock (t := 0) rfl rfl)
  have h₃ := h₂.step (by exact id) (.wait (t := 0) rfl)
  have h₄ := h₃.step (by exact id) (.begin (t := 1) rfl rfl)
  have h₅ := h₄.step (by exact id) (.lock (t := 1) rfl rfl)
  have h₆ := h₅.step (by exact id) (.wait (t := 1) rfl)
  have h₇ := h₆.step (by exact id) (.begin (t := 2) rfl rfl)
  have h₈ := h₇.step (by exact id) (.lock (t := 2) rfl rfl)
  have h₉ := h₈.step (by exact id) (.finish (t := 2) rfl)
  have h₁₀ := h₉.step (by exact id) (.signal (t := 2) (u := 0) rfl rfl)
  have h₁₁ := h₁₀.step (by exact id) (.leave (t := 2) rfl)
  have h₁₂ := h₁₁.step (by exact id) (.relock (t := 0) rfl rfl)
  have h₁₃ := h₁₂.step (by exact id) (.wait (t := 0) rfl)
  refine ⟨_, h₁₃, rfl, ?_, 1, _, rfl, Or.inl (by decide)⟩
  intro t
  fin_cases t
  · exact Or.inr ⟨_, rfl⟩
  · exact Or.inr ⟨_, rfl⟩
  · exact Or.inl ⟨rfl, rfl⟩

end XPerl.ThreadQueue
