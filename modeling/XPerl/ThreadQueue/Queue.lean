import XPerl.Framework.Monitor

/-! `Thread::Queue`: the methods between the points where a thread takes and leaves the lock. -/

namespace XPerl.ThreadQueue

open XPerl.Framework.Monitor

variable {α : Type}

/-- A defined argument, with the number that Perl reads it as. -/
structure Scalar where
  text : String
  value : Rat
  looksLikeNumber : Bool

inductive Arg where
  | omitted
  | undef
  | given (arg : Scalar)

def Arg.ofInt (n : Int) : Arg := .given ⟨toString n, n, true⟩

/-- Why a call dies. -/
inductive Croak where
  | ended (method : String)
  | invalidIndex (index method : String)
  | invalidCount (count method : String)
  | countExceedsLimit (count method : String) (limit : Nat)
  | invalidTimeout (timeout method : String)
  | rangeIterator
deriving DecidableEq

def Croak.text : Croak → String
  | .ended method => "'" ++ method ++ "' method called on queue that has been 'end'ed"
  | .invalidIndex index method =>
    "Invalid 'index' argument (" ++ index ++ ") to '" ++ method ++ "' method"
  | .invalidCount count method =>
    "Invalid 'count' argument (" ++ count ++ ") to '" ++ method ++ "' method"
  | .countExceedsLimit count method limit =>
    "'count' argument (" ++ count ++ ") to '" ++ method ++ "' method exceeds queue size limit (" ++
      toString limit ++ ")"
  | .invalidTimeout timeout method =>
    "Invalid 'timeout' argument (" ++ timeout ++ ") to '" ++ method ++ "' method"
  | .rangeIterator => "Range iterator outside integer range"

/-- The shared hash; a limit of 0 stands for `undef` too. -/
structure Queue (α : Type) where
  queue : List α
  limit : Nat
  ended : Bool
deriving DecidableEq

/-- What a call returns: `done` where the value means nothing, `nothing` for the empty list. -/
inductive Answer (α : Type) where
  | done
  | nothing
  | pending (number : Nat)
  | item (item : Option α)
  | items (items : List (Option α))
  | croak (error : Croak)
deriving DecidableEq

abbrev Run (α : Type) := Progress (Queue α) (Answer α)

def Queue.exceedsLimit (q : Queue α) (count : Rat) : Bool := q.limit ≠ 0 ∧ (q.limit : Rat) < count

def Queue.countCroak (q : Queue α) (method text : String) (value : Rat) : Croak :=
  if q.exceedsLimit value then .countExceedsLimit text method q.limit
  else .invalidCount text method

/-- `_validate_count`, where the count may be left out. -/
def Queue.validateCount (q : Queue α) (method : String) : Arg → Except Croak Int
  | .omitted => .ok 1
  | .undef => .error (q.countCroak method "undef" 0)
  | .given arg =>
    if arg.looksLikeNumber ∧ arg.value.den = 1 ∧ 1 ≤ arg.value ∧ ¬ q.exceedsLimit arg.value then
      .ok arg.value.num
    else .error (q.countCroak method arg.text arg.value)

/-- `_validate_index`, where the index may be left out if there is a default. -/
def validateIndex (method : String) (default : Option Int) : Arg → Except Croak Int
  | .omitted =>
    match default with
    | some index => .ok index
    | none => .error (.invalidIndex "undef" method)
  | .undef => .error (.invalidIndex "undef" method)
  | .given arg =>
    if arg.looksLikeNumber ∧ arg.value.den = 1 then .ok arg.value.num
    else .error (.invalidIndex arg.text method)

/-- `_validate_timeout`; how long the wait is does not matter here. -/
def validateTimeout (method : String) : Arg → Except Croak Unit
  | .omitted => .ok ()
  | .undef => .error (.invalidTimeout "undef" method)
  | .given arg =>
    if arg.looksLikeNumber then .ok () else .error (.invalidTimeout arg.text method)

def Queue.die (q : Queue α) (error : Croak) : Run α := .finish (.croak error) q false

def Queue.withCount (q : Queue α) (method : String) (arg : Arg) (body : Int → Run α) : Run α :=
  match q.validateCount method arg with
  | .ok count => body count
  | .error error => q.die error

def Queue.withIndex (q : Queue α) (method : String) (default : Option Int) (arg : Arg)
    (body : Int → Run α) : Run α :=
  match validateIndex method default arg with
  | .ok index => body index
  | .error error => q.die error

/-- The value of a count that has passed. -/
def Arg.count : Arg → Int
  | .given arg => arg.value.num
  | _ => 1

/-- `push(@items, shift(@$queue)) for (1..$count)` -/
def shiftEach : Nat → List α → List (Option α) → List (Option α) × List α
  | 0, queue, items => (items, queue)
  | n + 1, queue, items => shiftEach n queue.tail (items ++ [queue.head?])

def shiftAvailable : Nat → List α → List (Option α) → List (Option α) × List α
  | 0, queue, items => (items, queue)
  | _ + 1, [], items => (items, [])
  | n + 1, item :: queue, items => shiftAvailable n queue (items ++ [some item])

/-- `unshift(@tmp, pop(@$queue)) while (@$queue > $bound)`, with a turn for each item. -/
def popDown (bound : Int) : Nat → List α → List α → List α × List α
  | 0, queue, tmp => (tmp, queue)
  | n + 1, queue, tmp =>
    match queue.getLast? with
    | some item =>
      if bound < queue.length then popDown bound n queue.dropLast (item :: tmp) else (tmp, queue)
    | none => (tmp, queue)

def ivMax : Int := 9223372036854775807

def Queue.full (q : Queue α) : Bool := q.limit ≠ 0 ∧ q.limit ≤ q.queue.length

def Queue.enqueueLoop (q : Queue α) (items : List α) : Run α :=
  if q.full then .wait
  else .finish .done { q with queue := q.queue ++ items } ((q.queue ++ items).length ≠ 0)

def Queue.enqueue (q : Queue α) (items : List α) : Run α :=
  if q.ended then q.die (.ended "enqueue") else q.enqueueLoop items

def Queue.pending (q : Queue α) : Run α :=
  if q.ended ∧ q.queue.isEmpty then .finish .nothing q false
  else .finish (.pending q.queue.length) q false

def Queue.endQueue (q : Queue α) : Run α := .finish .done { q with ended := true } true

/-- `return $item` after `shift(@$queue)` and `cond_signal`. -/
def Queue.shiftOne (q : Queue α) : Run α :=
  .finish (.item q.queue.head?) { q with queue := q.queue.tail } true

def Queue.dequeueNb (q : Queue α) (arg : Arg) : Run α :=
  q.withCount "dequeue_nb" arg fun count =>
    if count = 1 then q.shiftOne
    else if ivMax < count then q.die .rangeIterator
    else
      let (items, queue) := shiftAvailable count.toNat q.queue []
      .finish (.items items) { q with queue := queue } true

def Queue.dequeueLoop (q : Queue α) (count : Int) : Run α :=
  if q.queue.length < count ∧ ¬ q.ended then .wait
  else if q.ended then q.dequeueNb (.ofInt count)
  else if count = 1 then q.shiftOne
  else if ivMax < count then q.die .rangeIterator
  else
    let (items, queue) := shiftEach count.toNat q.queue []
    .finish (.items items) { q with queue := queue } true

def Queue.dequeue (q : Queue α) (arg : Arg) : Run α :=
  q.withCount "dequeue" arg fun count => q.dequeueLoop count

def Queue.dequeueTimedLoop (q : Queue α) (count : Int) (timedOut : Bool) : Run α :=
  if ¬ timedOut ∧ q.queue.length < count ∧ ¬ q.ended then .wait else q.dequeueNb (.ofInt count)

def Queue.dequeueTimed (q : Queue α) (timeout arg : Arg) : Run α :=
  match validateTimeout "dequeue_timed" timeout with
  | .error error => q.die error
  | .ok _ => q.withCount "dequeue_timed" arg fun count => q.dequeueTimedLoop count false

def element (queue : List α) (index : Int) : Option α :=
  if index < 0 then
    if index + queue.length < 0 then none else queue[(index + queue.length).toNat]?
  else queue[index.toNat]?

def Queue.peek (q : Queue α) (index : Arg) : Run α :=
  q.withIndex "peek" (some 0) index fun index => .finish (.item (element q.queue index)) q false

def Queue.insert (q : Queue α) (index : Arg) (items : List α) : Run α :=
  if q.ended then q.die (.ended "insert")
  else
    q.withIndex "insert" none index fun index =>
      if items.isEmpty then .finish .nothing q false
      else
        let fromHead := if index < 0 then index + q.queue.length else index
        let index := if fromHead < 0 then 0 else fromHead
        let (tmp, queue) := popDown index q.queue.length q.queue []
        .finish .done { q with queue := queue ++ items ++ tmp } true

def Queue.extractFrom (q : Queue α) (index count : Int) : Run α :=
  let (tmp, queue) := popDown (index + count) q.queue.length q.queue []
  let (items, queue) := popDown index queue.length queue []
  .finish (if count = 1 then .item items.head? else .items (items.map some))
    { q with queue := queue ++ tmp } true

def Queue.extract (q : Queue α) (index count : Arg) : Run α :=
  q.withIndex "extract" (some 0) index fun index =>
    q.withCount "extract" count fun count =>
      if index < 0 then
        let index := index + q.queue.length
        if index < 0 then
          let count := count + index
          if count ≤ 0 then .finish .nothing q false else q.dequeueNb (.ofInt count)
        else q.extractFrom index count
      else q.extractFrom index count

/-- The calls of a queue. -/
inductive Call (α : Type) where
  | enqueue (items : List α)
  | dequeue (count : Arg)
  | dequeueNb (count : Arg)
  | dequeueTimed (timeout count : Arg)
  | peek (index : Arg)
  | pending
  | insert (index : Arg) (items : List α)
  | extract (index count : Arg)
  | endQueue

/-- The methods as one object under its lock. A method that does not wait is never resumed. -/
def queueCalls (α : Type) : Calls (Queue α) (Call α) (Answer α) where
  start call q :=
    match call with
    | .enqueue items => q.enqueue items
    | .dequeue count => q.dequeue count
    | .dequeueNb count => q.dequeueNb count
    | .dequeueTimed timeout count => q.dequeueTimed timeout count
    | .peek index => q.peek index
    | .pending => q.pending
    | .insert index items => q.insert index items
    | .extract index count => q.extract index count
    | .endQueue => q.endQueue
  resume call timedOut q :=
    match call with
    | .enqueue items => q.enqueueLoop items
    | .dequeue count => q.dequeueLoop count.count
    | .dequeueTimed _ count => q.dequeueTimedLoop count.count timedOut
    | _ => .wait

end XPerl.ThreadQueue
