import Mathlib.Data.List.Basic
import Mathlib.Data.Rat.Defs
import XPerl.ThreadQueue.Queue

/-! The calls of a queue as splices of one sequence. -/

namespace XPerl.ThreadQueue

open XPerl.Framework.Monitor Queue

variable {α : Type}

def reply (count : Int) (items : List α) : Answer α :=
  if count = 1 then .item items.head? else .items (items.map some)

def Queue.takeFront (q : Queue α) (count : Int) : Answer α × Queue α :=
  if ivMax < count then (.croak .rangeIterator, q)
  else (reply count (q.queue.take count.toNat), { q with queue := q.queue.drop count.toNat })

def Queue.cut (q : Queue α) (index count : Int) : Answer α × Queue α :=
  (reply count ((q.queue.drop index.toNat).take count.toNat),
    { q with queue := q.queue.take index.toNat ++ q.queue.drop (index + count).toNat })

def Queue.place (q : Queue α) (index : Int) : Int :=
  if index < 0 then index + q.queue.length else index

def seqStep (call : Call α) (q : Queue α) : Option (Answer α × Queue α) :=
  match call with
  | .enqueue items =>
    if q.ended then some (.croak (.ended "enqueue"), q)
    else if q.full then none
    else some (.done, { q with queue := q.queue ++ items })
  | .dequeue count =>
    match q.validateCount "dequeue" count with
    | .error error => some (.croak error, q)
    | .ok count => if count ≤ q.queue.length ∨ q.ended then some (q.takeFront count) else none
  | .dequeueNb count =>
    match q.validateCount "dequeue_nb" count with
    | .error error => some (.croak error, q)
    | .ok count => some (q.takeFront count)
  | .dequeueTimed timeout count =>
    match validateTimeout "dequeue_timed" timeout with
    | .error error => some (.croak error, q)
    | .ok _ =>
      match q.validateCount "dequeue_timed" count with
      | .error error => some (.croak error, q)
      | .ok count => some (q.takeFront count)
  | .peek index =>
    match validateIndex "peek" (some 0) index with
    | .error error => some (.croak error, q)
    | .ok index =>
      some (.item (if q.place index < 0 then none else q.queue[(q.place index).toNat]?), q)
  | .pending =>
    some (if q.ended ∧ q.queue.isEmpty then .nothing else .pending q.queue.length, q)
  | .insert index items =>
    if q.ended then some (.croak (.ended "insert"), q)
    else
      match validateIndex "insert" none index with
      | .error error => some (.croak error, q)
      | .ok index =>
        if items.isEmpty then some (.nothing, q)
        else
          some (.done, { q with
            queue := q.queue.take (q.place index).toNat ++ items ++
              q.queue.drop (q.place index).toNat })
  | .extract index count =>
    match validateIndex "extract" (some 0) index with
    | .error error => some (.croak error, q)
    | .ok index =>
      match q.validateCount "extract" count with
      | .error error => some (.croak error, q)
      | .ok count =>
        if 0 ≤ q.place index then some (q.cut (q.place index) count)
        else if count + q.place index ≤ 0 then some (.nothing, q)
        else some (q.takeFront (count + q.place index))
  | .endQueue => some (.done, { q with ended := true })

/-- A call takes effect as one step of the sequence. -/
def Atomic (call : Call α) (q : Queue α) (answer : Answer α) (q' : Queue α) : Prop :=
  seqStep call q = some (answer, q')

theorem shiftEach_eq (n : Nat) (queue : List α) (items : List (Option α)) (h : n ≤ queue.length) :
    shiftEach n queue items = (items ++ (queue.take n).map some, queue.drop n) := by
  induction n generalizing queue items with
  | zero => simp [shiftEach]
  | succ n ih =>
    cases queue with
    | nil => cases h
    | cons item queue =>
      rw [shiftEach, List.head?_cons, List.tail_cons, ih _ _ (Nat.le_of_succ_le_succ h)]
      simp

theorem shiftAvailable_eq (n : Nat) (queue : List α) (items : List (Option α)) :
    shiftAvailable n queue items = (items ++ (queue.take n).map some, queue.drop n) := by
  induction n generalizing queue items with
  | zero => simp [shiftAvailable]
  | succ n ih =>
    cases queue with
    | nil => simp [shiftAvailable]
    | cons item queue =>
      rw [shiftAvailable, ih]
      simp

theorem popDown_eq {bound : Int} (hbound : 0 ≤ bound) (n : Nat) (queue tmp : List α)
    (h : queue.length ≤ n) :
    popDown bound n queue tmp = (queue.drop bound.toNat ++ tmp, queue.take bound.toNat) := by
  induction n generalizing queue tmp with
  | zero =>
    have hnil := List.length_eq_zero_iff.1 (Nat.le_zero.1 h)
    simp [popDown, hnil]
  | succ n ih =>
    rw [popDown]
    rcases List.eq_nil_or_concat queue with hnil | ⟨front, item, hqueue⟩
    · simp [hnil]
    · rw [List.concat_eq_append] at hqueue
      subst hqueue
      rw [List.getLast?_append, List.getLast?_singleton, Option.some_or]
      dsimp only
      rw [List.length_append, List.length_singleton] at h ⊢
      by_cases hlong : bound < ((front.length + 1 : Nat) : Int)
      · have hplace : bound.toNat ≤ front.length := by omega
        rw [if_pos hlong, List.dropLast_concat, ih _ _ (by omega),
          List.drop_append_of_le_length hplace, List.take_append_of_le_length hplace,
          List.append_assoc]
        rfl
      · have hplace : (front ++ [item]).length ≤ bound.toNat := by
          rw [List.length_append, List.length_singleton]
          omega
        rw [if_neg hlong, List.drop_eq_nil_of_le hplace, List.take_of_length_le hplace]
        rfl

theorem exceedsLimit_intCast (q : Queue α) (count : Int) :
    q.exceedsLimit count = decide (q.limit ≠ 0 ∧ (q.limit : Int) < count) := by
  rw [exceedsLimit, decide_eq_decide]
  exact and_congr_right fun _ => by exact_mod_cast Iff.rfl

variable {q q' : Queue α} {count : Int} {answer : Answer α} {call : Call α}

variable {arg : Arg} {index : Int} {signals : Bool} {items : List α}

theorem validateCount_ok {method : String}
    (h : q.validateCount method arg = .ok count) :
    count = arg.count ∧ 1 ≤ count ∧ ¬ q.exceedsLimit count := by
  cases arg with
  | omitted =>
    cases h
    refine ⟨rfl, Int.le_refl 1, ?_⟩
    rw [exceedsLimit_intCast, decide_eq_true_eq]
    omega
  | undef => cases h
  | given arg =>
    rw [validateCount] at h
    split at h
    · rename_i hvalid
      obtain ⟨-, hden, hone, hlimit⟩ := hvalid
      cases h
      have hvalue : arg.value = ((arg.value.num : Int) : Rat) := ((Rat.den_eq_one_iff _).1 hden).symm
      refine ⟨rfl, ?_, ?_⟩
      · rw [hvalue] at hone
        exact_mod_cast hone
      · rw [← hvalue]
        exact hlimit
    · cases h

theorem validateCount_ofInt (method : String) (hcount : 1 ≤ count)
    (hlimit : ¬ q.exceedsLimit count) : q.validateCount method (.ofInt count) = .ok count := by
  rw [Arg.ofInt, validateCount]
  rw [if_pos]
  · rfl
  · have hone : (1 : Rat) ≤ (count : Rat) := by exact_mod_cast hcount
    exact ⟨rfl, rfl, hone, hlimit⟩

theorem not_exceedsLimit_mono {count' : Int} (hle : count' ≤ count)
    (h : ¬ q.exceedsLimit count) : ¬ q.exceedsLimit count' := by
  rw [exceedsLimit_intCast, decide_eq_true_eq] at h ⊢
  omega

/-- What a run that goes through answers and leaves. -/
def outcome : Run α → Option (Answer α × Queue α)
  | .wait => none
  | .finish answer q _ => some (answer, q)

theorem shiftOne_outcome (q : Queue α) : outcome q.shiftOne = some (q.takeFront 1) := by
  cases hq : q.queue <;> simp [shiftOne, outcome, takeFront, reply, ivMax, hq]

theorem dequeueNb_outcome
    (h : q.validateCount "dequeue_nb" arg = .ok count) :
    outcome (q.dequeueNb arg) = some (q.takeFront count) := by
  rw [Queue.dequeueNb, withCount, h]
  dsimp only
  by_cases hone : count = 1
  · rw [if_pos hone, hone, shiftOne_outcome]
  · rw [if_neg hone, takeFront]
    by_cases hrange : ivMax < count
    · rw [if_pos hrange, if_pos hrange]
      rfl
    · rw [if_neg hrange, if_neg hrange, shiftAvailable_eq, reply, if_neg hone]
      rfl

theorem dequeueNb_ofInt (hcount : 1 ≤ count)
    (hlimit : ¬ q.exceedsLimit count) :
    outcome (q.dequeueNb (.ofInt count)) = some (q.takeFront count) :=
  dequeueNb_outcome (validateCount_ofInt _ hcount hlimit)

theorem dequeueLoop_outcome (hcount : 1 ≤ count)
    (hlimit : ¬ q.exceedsLimit count) :
    outcome (q.dequeueLoop count) =
      if count ≤ q.queue.length ∨ q.ended then some (q.takeFront count) else none := by
  rw [dequeueLoop]
  by_cases hwait : q.queue.length < count ∧ ¬ q.ended
  · rw [if_pos hwait, if_neg]
    · rfl
    · intro hready
      rcases hready with hlength | hended
      · omega
      · exact hwait.2 hended
  · have hready : count ≤ q.queue.length ∨ q.ended := by
      by_cases hended : q.ended
      · exact Or.inr hended
      · exact Or.inl (Int.not_lt.1 fun hlength => hwait ⟨hlength, hended⟩)
    rw [if_neg hwait, if_pos hready]
    by_cases hended : q.ended
    · rw [if_pos hended, dequeueNb_ofInt hcount hlimit]
    · rw [if_neg hended]
      by_cases hone : count = 1
      · rw [if_pos hone, hone, shiftOne_outcome]
      · rw [if_neg hone, takeFront]
        by_cases hrange : ivMax < count
        · rw [if_pos hrange, if_pos hrange]
          rfl
        · have hlength : count.toNat ≤ q.queue.length := by
            have := hready.resolve_right hended
            omega
          rw [if_neg hrange, if_neg hrange, shiftEach_eq _ _ _ hlength, reply, if_neg hone]
          rfl

theorem dequeueTimedLoop_outcome (hcount : 1 ≤ count)
    (hlimit : ¬ q.exceedsLimit count) (timedOut : Bool) :
    q.dequeueTimedLoop count timedOut = .wait ∨
      outcome (q.dequeueTimedLoop count timedOut) = some (q.takeFront count) := by
  rw [dequeueTimedLoop]
  split
  · exact Or.inl rfl
  · exact Or.inr (dequeueNb_ofInt hcount hlimit)

theorem element_eq (q : Queue α) (index : Int) :
    element q.queue index =
      if q.place index < 0 then none else q.queue[(q.place index).toNat]? := by
  rw [element, Queue.place]
  by_cases hneg : index < 0
  · rw [if_pos hneg, if_pos hneg]
  · rw [if_neg hneg, if_neg hneg, if_neg hneg]

theorem toNat_clamped (place : Int) : (if place < 0 then 0 else place).toNat = place.toNat := by
  split <;> omega

theorem insert_outcome (q : Queue α) (index : Arg) (items : List α) :
    outcome (q.insert index items) = seqStep (.insert index items) q := by
  rw [Queue.insert, seqStep]
  by_cases hended : q.ended
  · rw [if_pos hended, if_pos hended]
    rfl
  · rw [if_neg hended, if_neg hended, withIndex]
    cases validateIndex "insert" none index with
    | error error => rfl
    | ok place =>
      dsimp only
      by_cases hitems : items.isEmpty
      · rw [if_pos hitems, if_pos hitems]
        rfl
      · have hclamped : 0 ≤ (if q.place place < 0 then 0 else q.place place) := by
          split <;> omega
        rw [if_neg hitems, if_neg hitems]
        rw [Queue.place] at hclamped ⊢
        rw [popDown_eq hclamped _ _ _ le_rfl, toNat_clamped, List.append_nil]
        rfl

theorem extractFrom_outcome (q : Queue α) (hindex : 0 ≤ index)
    (hcount : 1 ≤ count) : outcome (q.extractFrom index count) = some (q.cut index count) := by
  have hslice : (q.queue.take (index + count).toNat).drop index.toNat =
      (q.queue.drop index.toNat).take count.toNat := by
    rw [List.drop_take]
    congr 1
    omega
  have hkept : (q.queue.take (index + count).toNat).take index.toNat = q.queue.take index.toNat := by
    rw [List.take_take]
    congr 1
    omega
  rw [extractFrom, popDown_eq (by omega) _ _ _ le_rfl]
  dsimp only
  rw [popDown_eq hindex _ _ _ le_rfl, hslice, hkept, List.append_nil, List.append_nil]
  rfl

theorem extract_outcome (q : Queue α) (index count : Arg) :
    outcome (q.extract index count) = seqStep (.extract index count) q := by
  rw [Queue.extract, seqStep, withIndex]
  cases validateIndex "extract" (some 0) index with
  | error error => rfl
  | ok place =>
    dsimp only
    rw [withCount]
    cases hcount : q.validateCount "extract" count with
    | error error => rfl
    | ok count' =>
      dsimp only
      obtain ⟨-, hone, hlimit⟩ := validateCount_ok hcount
      rw [Queue.place]
      by_cases hneg : place < 0
      · rw [if_pos hneg, if_pos hneg]
        by_cases hbeyond : place + q.queue.length < 0
        · have hbefore : ¬ 0 ≤ place + (q.queue.length : Int) := by omega
          rw [if_pos hbeyond, if_neg hbefore]
          by_cases hnone : count' + (place + q.queue.length) ≤ 0
          · rw [if_pos hnone, if_pos hnone]
            rfl
          · rw [if_neg hnone, if_neg hnone]
            exact dequeueNb_ofInt (by omega) (not_exceedsLimit_mono (by omega) hlimit)
        · rw [if_neg hbeyond, if_pos (by omega)]
          exact extractFrom_outcome q (by omega) hone
      · rw [if_neg hneg, if_neg hneg, if_pos (by omega)]
        exact extractFrom_outcome q (by omega) hone

theorem enqueue_outcome (q : Queue α) (items : List α) :
    outcome (q.enqueue items) = seqStep (.enqueue items) q := by
  rw [seqStep, Queue.enqueue, enqueueLoop]
  by_cases hended : q.ended
  · rw [if_pos hended, if_pos hended]
    rfl
  · rw [if_neg hended, if_neg hended]
    by_cases hfull : q.full
    · rw [if_pos hfull, if_pos hfull]
      rfl
    · rw [if_neg hfull, if_neg hfull]
      rfl

theorem dequeue_outcome (q : Queue α) (arg : Arg) :
    outcome (q.dequeue arg) = seqStep (.dequeue arg) q := by
  rw [seqStep, Queue.dequeue, withCount]
  cases hcount : q.validateCount "dequeue" arg with
  | error error => rfl
  | ok count =>
    obtain ⟨-, hone, hlimit⟩ := validateCount_ok hcount
    exact dequeueLoop_outcome hone hlimit

theorem dequeueNb_step (q : Queue α) (arg : Arg) :
    outcome (q.dequeueNb arg) = seqStep (.dequeueNb arg) q := by
  rw [seqStep]
  cases hcount : q.validateCount "dequeue_nb" arg with
  | error error =>
    rw [Queue.dequeueNb, withCount, hcount]
    rfl
  | ok count => exact dequeueNb_outcome hcount

theorem dequeueTimed_outcome (q : Queue α) (timeout arg : Arg) :
    q.dequeueTimed timeout arg = .wait ∨
      outcome (q.dequeueTimed timeout arg) = seqStep (.dequeueTimed timeout arg) q := by
  rw [seqStep, Queue.dequeueTimed, withCount]
  cases validateTimeout "dequeue_timed" timeout with
  | error error => exact Or.inr rfl
  | ok _ =>
    cases hcount : q.validateCount "dequeue_timed" arg with
    | error error => exact Or.inr rfl
    | ok count =>
      obtain ⟨-, hone, hlimit⟩ := validateCount_ok hcount
      exact dequeueTimedLoop_outcome hone hlimit false

theorem peek_outcome (q : Queue α) (index : Arg) :
    outcome (q.peek index) = seqStep (.peek index) q := by
  rw [seqStep, Queue.peek, withIndex]
  cases validateIndex "peek" (some 0) index with
  | error error => rfl
  | ok place =>
    dsimp only
    rw [element_eq]
    rfl

theorem pending_outcome (q : Queue α) : outcome q.pending = seqStep .pending q := by
  rw [seqStep, Queue.pending]
  by_cases hdry : q.ended ∧ q.queue.isEmpty
  · rw [if_pos hdry, if_pos hdry]
    rfl
  · rw [if_neg hdry, if_neg hdry]
    rfl

theorem start_atomic (call : Call α) (q : Queue α)
    (h : (queueCalls α).start call q = .finish answer q' signals) :
    Atomic call q answer q' := by
  have hstep : outcome ((queueCalls α).start call q) = some (answer, q') := by
    rw [h]
    rfl
  cases call with
  | enqueue items => exact (enqueue_outcome q items).symm.trans hstep
  | dequeue count => exact (dequeue_outcome q count).symm.trans hstep
  | dequeueNb count => exact (dequeueNb_step q count).symm.trans hstep
  | dequeueTimed timeout count =>
    rcases dequeueTimed_outcome q timeout count with hwait | hout
    · cases h.symm.trans hwait
    · exact hout.symm.trans hstep
  | peek index => exact (peek_outcome q index).symm.trans hstep
  | pending => exact (pending_outcome q).symm.trans hstep
  | insert index items => exact (insert_outcome q index items).symm.trans hstep
  | extract index count => exact (extract_outcome q index count).symm.trans hstep
  | endQueue => exact hstep

def Started (call : Call α) (q : Queue α) : Prop :=
  match call with
  | .dequeue count => q.validateCount "dequeue" count = .ok count.count
  | .dequeueTimed timeout count =>
    validateTimeout "dequeue_timed" timeout = .ok () ∧
      q.validateCount "dequeue_timed" count = .ok count.count
  | _ => True

theorem started_of_wait
    (h : (queueCalls α).start call q = .wait) : Started call q := by
  cases call with
  | dequeue arg =>
    have hstart : q.dequeue arg = .wait := h
    rw [Queue.dequeue, withCount] at hstart
    cases hcount : q.validateCount "dequeue" arg with
    | error error =>
      rw [hcount] at hstart
      cases hstart
    | ok count => exact hcount.trans (congrArg Except.ok (validateCount_ok hcount).1)
  | dequeueTimed timeout arg =>
    have hstart : q.dequeueTimed timeout arg = .wait := h
    rw [Queue.dequeueTimed, withCount] at hstart
    cases htimeout : validateTimeout "dequeue_timed" timeout with
    | error error =>
      rw [htimeout] at hstart
      cases hstart
    | ok _ =>
      cases hcount : q.validateCount "dequeue_timed" arg with
      | error error =>
        rw [htimeout, hcount] at hstart
        cases hstart
      | ok count =>
        exact ⟨htimeout, hcount.trans (congrArg Except.ok (validateCount_ok hcount).1)⟩
  | _ => trivial

theorem Started.of_limit (h : Started call q)
    (hlimit : q'.limit = q.limit) : Started call q' := by
  have hexceeds (count : Rat) : q'.exceedsLimit count = q.exceedsLimit count := by
    rw [exceedsLimit, exceedsLimit, hlimit]
  have hcroak (method text : String) (value : Rat) :
      q'.countCroak method text value = q.countCroak method text value := by
    rw [countCroak, countCroak, hexceeds, hlimit]
  have hcount (method : String) (arg : Arg) :
      q'.validateCount method arg = q.validateCount method arg := by
    cases arg with
    | omitted => rfl
    | undef => exact congrArg Except.error (hcroak _ _ _)
    | given arg => rw [validateCount, validateCount, hexceeds, hcroak]
  cases call with
  | dequeue arg => exact (hcount _ _).trans h
  | dequeueTimed timeout arg => exact ⟨h.1, (hcount _ _).trans h.2⟩
  | _ => trivial

theorem resume_atomic (hstarted : Started call q) {timedOut : Bool}
    (hopen : ∀ items, call = .enqueue items → q.ended = false)
    (h : (queueCalls α).resume call timedOut q = .finish answer q' signals) :
    Atomic call q answer q' := by
  have hstep : outcome ((queueCalls α).resume call timedOut q) = some (answer, q') := by
    rw [h]
    rfl
  cases call with
  | enqueue items =>
    have hstart : q.enqueue items = q.enqueueLoop items := by
      rw [Queue.enqueue, hopen items rfl]
      rfl
    exact start_atomic (.enqueue items) q (hstart.trans h)
  | dequeue arg =>
    obtain ⟨-, hone, hlimit⟩ := validateCount_ok hstarted
    rw [Atomic, seqStep, hstarted, ← hstep]
    exact (dequeueLoop_outcome hone hlimit).symm
  | dequeueTimed timeout arg =>
    obtain ⟨htimeout, hcount⟩ := hstarted
    obtain ⟨-, hone, hlimit⟩ := validateCount_ok hcount
    rw [Atomic, seqStep, htimeout, hcount, ← hstep]
    rcases dequeueTimedLoop_outcome hone hlimit timedOut with hwait | hout
    · cases h.symm.trans hwait
    · exact hout.symm
  | _ => cases h

def Answer.handed : Answer α → List α
  | .item x => x.toList
  | .items xs => xs.filterMap id
  | _ => []

def Call.added (call : Call α) (answer : Answer α) : List α :=
  match call, answer with
  | .enqueue items, .done => items
  | .insert _ items, .done => items
  | _, _ => []

def Call.removed (call : Call α) (answer : Answer α) : List α :=
  match call with
  | .peek _ => []
  | _ => answer.handed

def Call.Takes : Call α → Prop
  | .dequeue _ => True
  | .dequeueNb _ => True
  | .dequeueTimed _ _ => True
  | .extract _ _ => True
  | _ => False

/-- A call that works at one end only. -/
def Call.Ordinary : Call α → Prop
  | .insert _ _ => False
  | .extract _ _ => False
  | _ => True

/-- All that a step of the sequence can do. -/
inductive Effect (q : Queue α) : Call α → Answer α → Queue α → Prop where
  | same {call : Call α} {answer : Answer α} : call.added answer = [] → call.removed answer = [] →
      Effect q call answer q
  | append (items : List α) : q.ended = false → q.full = false →
      Effect q (.enqueue items) .done { q with queue := q.queue ++ items }
  | front {call : Call α} (count : Int) : call.Takes →
      Effect q call (q.takeFront count).1 (q.takeFront count).2
  | splice (index : Arg) (items : List α) (place : Nat) : q.ended = false →
      Effect q (.insert index items) .done
        { q with queue := q.queue.take place ++ items ++ q.queue.drop place }
  | cut (index count : Arg) {i n : Int} : 0 ≤ i → 1 ≤ n →
      Effect q (.extract index count) (q.cut i n).1 (q.cut i n).2
  | close : Effect q .endQueue .done { q with ended := true }

theorem Effect.of_front
    (htakes : call.Takes) (h : some (q.takeFront count) = some (answer, q')) :
    Effect q call answer q' := by
  have hfront := Effect.front (q := q) count htakes
  rw [Option.some.inj h] at hfront
  exact hfront

theorem Atomic.effect
    (h : Atomic call q answer q') : Effect q call answer q' := by
  rw [Atomic] at h
  cases call with
  | enqueue items =>
    rw [seqStep] at h
    split_ifs at h with hended hfull <;> cases h
    · exact .same rfl rfl
    · exact .append items (Bool.eq_false_iff.2 hended) (Bool.eq_false_iff.2 hfull)
  | dequeue arg =>
    rw [seqStep] at h
    split at h
    · cases h
      exact .same rfl rfl
    · split_ifs at h
      exact .of_front trivial h
  | dequeueNb arg =>
    rw [seqStep] at h
    split at h
    · cases h
      exact .same rfl rfl
    · exact .of_front trivial h
  | dequeueTimed timeout arg =>
    rw [seqStep] at h
    split at h
    · cases h
      exact .same rfl rfl
    · split at h
      · cases h
        exact .same rfl rfl
      · exact .of_front trivial h
  | peek index =>
    rw [seqStep] at h
    split at h <;> cases h <;> exact .same rfl rfl
  | pending =>
    rw [seqStep] at h
    obtain ⟨rfl, rfl⟩ := Prod.mk.inj (Option.some.inj h)
    refine .same rfl ?_
    split_ifs <;> rfl
  | insert index items =>
    rw [seqStep] at h
    split at h
    · cases h
      exact .same rfl rfl
    · next hended =>
      split at h
      · cases h
        exact .same rfl rfl
      · split_ifs at h <;> cases h
        · exact .same rfl rfl
        · exact .splice index items _ (Bool.eq_false_iff.2 hended)
  | extract index count =>
    rw [seqStep] at h
    split at h
    · cases h
      exact .same rfl rfl
    · split at h
      · cases h
        exact .same rfl rfl
      · next hcount =>
        split_ifs at h with hplace
        · have hcut := Effect.cut (q := q) index count hplace (validateCount_ok hcount).2.1
          rw [Option.some.inj h] at hcut
          exact hcut
        · cases h
          exact .same rfl rfl
        · exact .of_front trivial h
  | endQueue =>
    cases h
    exact .close

theorem handed_reply (h : count = 1 → items.length ≤ 1) :
    (reply count items).handed = items := by
  rw [reply]
  by_cases hone : count = 1
  · rw [if_pos hone]
    cases items with
    | nil => rfl
    | cons item rest =>
      have hrest : rest = [] := List.length_eq_zero_iff.1 (by simpa using h hone)
      rw [hrest]
      rfl
  · rw [if_neg hone]
    simp [Answer.handed, List.filterMap_map]

theorem takeFront_queue (q : Queue α) (count : Int) :
    (q.takeFront count).1.handed ++ (q.takeFront count).2.queue = q.queue := by
  rw [takeFront]
  by_cases hrange : ivMax < count
  · rw [if_pos hrange]
    rfl
  · rw [if_neg hrange]
    dsimp only
    rw [handed_reply, List.take_append_drop]
    intro hone
    rw [hone]
    exact List.length_take_le _ _

theorem cut_queue (q : Queue α) (hindex : 0 ≤ index) (hcount : 0 ≤ count) :
    ((q.cut index count).1.handed ++ (q.cut index count).2.queue).Perm q.queue := by
  have hsplit : (index + count).toNat = index.toNat + count.toNat := by omega
  have hwhole : q.queue.take index.toNat ++ ((q.queue.drop index.toNat).take count.toNat ++
      (q.queue.drop index.toNat).drop count.toNat) = q.queue := by
    rw [List.take_append_drop, List.take_append_drop]
  have hperm : ((q.queue.drop index.toNat).take count.toNat ++ (q.queue.take index.toNat ++
      (q.queue.drop index.toNat).drop count.toNat)).Perm q.queue := by
    conv => rhs; rw [← hwhole]
    rw [← List.append_assoc, ← List.append_assoc]
    exact List.perm_append_comm.append_right _
  rw [Queue.cut]
  dsimp only
  rw [handed_reply, hsplit, ← List.drop_drop]
  · exact hperm
  · intro hone
    rw [hone]
    exact List.length_take_le _ _

theorem takes_removed (h : call.Takes) (answer : Answer α) :
    call.removed answer = answer.handed ∧ call.added answer = [] := by
  cases call with
  | dequeue count => exact ⟨rfl, rfl⟩
  | dequeueNb count => exact ⟨rfl, rfl⟩
  | dequeueTimed timeout count => exact ⟨rfl, rfl⟩
  | extract index count => exact ⟨rfl, rfl⟩
  | _ => exact h.elim

theorem Effect.ordinary
    (h : Effect q call answer q') (hordinary : call.Ordinary) :
    q.queue ++ call.added answer = call.removed answer ++ q'.queue := by
  cases h with
  | same hadded hremoved =>
    rw [hadded, hremoved, List.append_nil]
    rfl
  | append items hopen hroom => rfl
  | front count htakes =>
    rw [(takes_removed htakes _).1, (takes_removed htakes _).2, List.append_nil,
      takeFront_queue]
  | splice index items place hopen => exact hordinary.elim
  | cut index count hi hn => exact hordinary.elim
  | close => exact List.append_nil _

theorem Effect.conserves
    (h : Effect q call answer q') :
    (call.added answer ++ q.queue).Perm (call.removed answer ++ q'.queue) := by
  cases h with
  | same hadded hremoved =>
    rw [hadded, hremoved]
  | append items hopen hroom => exact List.perm_append_comm
  | front count htakes =>
    rw [(takes_removed htakes _).1, (takes_removed htakes _).2, takeFront_queue]
    exact List.Perm.refl _
  | splice index items place hopen =>
    show (items ++ q.queue).Perm (q.queue.take place ++ items ++ q.queue.drop place)
    conv => lhs; rw [← List.take_append_drop place q.queue, ← List.append_assoc]
    exact List.perm_append_comm.append_right _
  | cut index count hi hn => exact (cut_queue q hi (Int.le_trans Int.one_nonneg hn)).symm
  | close => exact List.Perm.refl _

theorem takeFront_frame (q : Queue α) (count : Int) :
    (q.takeFront count).2.limit = q.limit ∧ (q.takeFront count).2.ended = q.ended := by
  rw [takeFront]
  split
  · exact ⟨rfl, rfl⟩
  · exact ⟨rfl, rfl⟩

theorem Effect.frame
    (h : Effect q call answer q') : q'.limit = q.limit ∧ (q.ended = true → q'.ended = true) := by
  cases h with
  | front count htakes =>
    refine ⟨(takeFront_frame q count).1, fun hended => ?_⟩
    rw [(takeFront_frame q count).2]
    exact hended
  | close => exact ⟨rfl, fun _ => rfl⟩
  | _ => exact ⟨rfl, id⟩

theorem Atomic.room (h : Atomic (.enqueue items) q .done q') :
    q.limit = 0 ∨ q.queue.length < q.limit := by
  rw [Atomic, seqStep] at h
  by_cases hended : q.ended
  · rw [if_pos hended] at h
    cases h
  · rw [if_neg hended] at h
    by_cases hfull : q.full
    · rw [if_pos hfull] at h
      cases h
    · rw [full, decide_eq_true_eq] at hfull
      omega

theorem Effect.added_of_ended
    (h : Effect q call answer q') (hended : q.ended = true) : call.added answer = [] := by
  cases h with
  | same hadded hremoved => exact hadded
  | append items hopen hroom => rw [hopen] at hended; cases hended
  | front count htakes => exact (takes_removed htakes _).2
  | splice index items place hopen => rw [hopen] at hended; cases hended
  | cut index count hi hn => rfl
  | close => rfl

end XPerl.ThreadQueue
