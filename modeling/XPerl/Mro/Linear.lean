import XPerl.Framework.Counted

/-! The C3 linearisation of `ext/mro/mro.xs`: `S_mro_get_linear_isa_c3`. -/

namespace XPerl.Mro

variable {Name : Type} [DecidableEq Name]

/-- The exceptions the linearisation throws, with what their messages name. -/
inductive Thrown (Name : Type) where
  | anonymousStash
  | depthExceeded (stash : Name)
  | hierarchyInconsistent (stash : Name) (merged : List Name) (cand : Name)
  deriving DecidableEq, Repr

/-- Why a call gives no list: an exception, a null pointer, or a loop cut short. -/
inductive Failure (Name : Type) where
  | thrown (e : Thrown Name)
  | nullPointer
  | outOfFuel
  deriving DecidableEq, Repr

abbrev Result (Name α : Type) := Except (Failure Name) α

/-- One entry of `seqs` with its entry of `heads`; it is not `live` once it is set to NULL. -/
structure Seq (Name : Type) where
  items : List Name
  head : Nat
  live : Bool
  deriving DecidableEq, Repr

/-- `%tails`: how often a class is mentioned behind the heads. -/
abbrev Tails (Name : Type) := Name → Option Int

def Tails.set (tails : Tails Name) (c : Name) (n : Int) : Tails Name :=
  Function.update tails c (some n)

def Tails.inc (tails : Tails Name) (c : Name) : Tails Name :=
  tails.set c ((tails c).getD 0 + 1)

/-- The count the acceptance test reads, where a missing entry counts as zero. -/
def Tails.count (tails : Tails Name) (c : Name) : Int := (tails c).getD 0

def buildTails (seqs : List (List Name)) : Tails Name :=
  seqs.foldl (fun tails seq => seq.tail.foldl Tails.inc tails) (fun _ => none)

/-- The variables of one round of the merge loop. -/
structure Round (Name : Type) where
  tails : Tails Name
  cand : Option Name
  winner : Option Name
  retval : List Name

/-- The choice of a winner at the head of a sequence; `none` is `continue`. -/
def elect (seqhead : Name) (r : Round Name) : Option (Round Name) :=
  match r.winner with
  | some _ => some r
  | none =>
    let r : Round Name := { r with cand := some seqhead }
    if r.tails.count seqhead > 0 then none
    else some { r with winner := some seqhead, retval := r.retval ++ [seqhead] }

/-- The housekeeping of a sequence whose head won. -/
def advance (seq : Seq Name) (r : Round Name) : Result Name (Seq Name × Round Name) :=
  let newHead := seq.head + 1
  if newHead ≥ seq.items.length then
    return ({ seq with head := newHead, live := false }, r)
  else
    match seq.items[newHead]? with
    | none => throw .nullPointer
    | some seqhead =>
      match r.tails seqhead with
      | none => throw .nullPointer
      | some val =>
        return ({ seq with head := newHead }, { r with tails := r.tails.set seqhead (val - 1) })

def visit (seq : Seq Name) (r : Round Name) : Result Name (Seq Name × Round Name) :=
  if !seq.live then return (seq, r)
  else
    match seq.items[seq.head]? with
    | none => throw .nullPointer
    | some seqhead =>
      match elect seqhead r with
      | none => return (seq, { r with cand := some seqhead })
      | some r => if r.winner = some seqhead then advance seq r else return (seq, r)

def visitAll : List (Seq Name) → Round Name → Result Name (List (Seq Name) × Round Name)
  | [], r => return ([], r)
  | seq :: seqs, r => do
    let (seq, r) ← visit seq r
    let (seqs, r) ← visitAll seqs r
    return (seq :: seqs, r)

/-- What is alive between two rounds. -/
structure Merge (Name : Type) where
  seqs : List (Seq Name)
  tails : Tails Name
  retval : List Name

/-- A round starts without candidate and winner. -/
def Merge.round (st : Merge Name) : Round Name := ⟨st.tails, none, none, st.retval⟩

/-- One pass of `while(1)`: the list, or the state of the next pass. -/
def mergeRound (stashhek : Name) (st : Merge Name) : Result Name (List Name ⊕ Merge Name) := do
  let (seqs, r) ← visitAll st.seqs st.round
  match r.cand with
  | none => return .inl r.retval
  | some cand =>
    match r.winner with
    | none => throw (.thrown (.hierarchyInconsistent stashhek r.retval cand))
    | some _ => return .inr ⟨seqs, r.tails, r.retval⟩

/-- `while(1)`, for at most as many passes as the first argument says. -/
def mergeLoop (stashhek : Name) : Nat → Merge Name → Result Name (List Name)
  | 0, _ => throw .outOfFuel
  | fuel + 1, st => do
    match ← mergeRound stashhek st with
    | .inl retval => return retval
    | .inr st => mergeLoop stashhek fuel st

/-- The state before the loop: heads at zero, `us first`. -/
def startMerge (stashhek : Name) (seqs : List (List Name)) : Merge Name :=
  ⟨seqs.map (⟨·, 0, true⟩), buildTails seqs, [stashhek]⟩

def itemCount : List (List Name) → Nat
  | [] => 0
  | seq :: seqs => seq.length + itemCount seqs

/-- The merge proper. The passes are at most one more than the sequences have items. -/
def fullMerge (stashhek : Name) (seqs : List (List Name)) : Result Name (List Name) :=
  mergeLoop stashhek (itemCount seqs + 1) (startMerge stashhek seqs)

/-- The private data of the c3 algorithm in the meta of each stash. -/
abbrev Cache (Name : Type) := Name → Option (List Name)

/-- The loop that builds `@seqs`; `.inl` is the shortcut for a single parent class. -/
def collect (isaOf : Name → Option (List Name))
    (recurse : Name → Cache Name → Cache Name × Result Name (List Name)) :
    List Name → List (List Name) → Cache Name →
      Cache Name × Result Name (List Name ⊕ List (List Name))
  | [], seqs, cache => (cache, .ok (.inr seqs))
  | isaItem :: items, seqs, cache =>
    match isaOf isaItem with
    | none => collect isaOf recurse items (seqs ++ [[isaItem]]) cache
    | some _ =>
      match recurse isaItem cache with
      | (cache, .error e) => (cache, .error e)
      | (cache, .ok isaLin) =>
        if items = [] ∧ seqs = [] then (cache, .ok (.inl isaLin))
        else collect isaOf recurse items (seqs ++ [isaLin]) cache

/-- `mro_set_private_data` after a list was built. -/
def setPrivateData (c : Name) (cache : Cache Name) :
    Result Name (List Name) → Cache Name × Result Name (List Name)
  | .ok retval => (Function.update cache c (some retval), .ok retval)
  | .error e => (cache, .error e)

/-- `S_mro_get_linear_isa_c3`. The first argument is `101 - level`, and zero is `level > 100`; a
name without a stash has no entry in `isaOf`. -/
def getLinearIsaC3 (isaOf : Name → Option (List Name)) :
    Nat → Name → Cache Name → Cache Name × Result Name (List Name)
  | 0, stashhek, cache => (cache, .error (.thrown (.depthExceeded stashhek)))
  | levels + 1, stashhek, cache =>
    match cache stashhek with
    | some retval => (cache, .ok retval)
    | none =>
      match (isaOf stashhek).getD [] with
      | [] => setPrivateData stashhek cache (.ok [stashhek])
      | isa@(_ :: _) =>
        match collect isaOf (getLinearIsaC3 isaOf levels) isa [] cache with
        | (cache, .error e) => (cache, .error e)
        | (cache, .ok (.inl isaLin)) => setPrivateData stashhek cache (.ok (stashhek :: isaLin))
        | (cache, .ok (.inr seqs)) =>
          setPrivateData stashhek cache (fullMerge stashhek (seqs ++ [isa]))

/-- The call at level 0, on a stash with or without a name. -/
def linearIsaC3 (isaOf : Name → Option (List Name)) (stash : Option Name) (cache : Cache Name) :
    Cache Name × Result Name (List Name) :=
  match stash with
  | none => (cache, .error (.thrown .anonymousStash))
  | some stashhek => getLinearIsaC3 isaOf 101 stashhek cache

/-! The depth-first linearisation of `mro_core.c`: `S_mro_get_linear_isa_dfs`. -/

open XPerl.Framework

/-- What the metas of the stashes hold for this algorithm: the private data of each, and the keys of
its isa hash. -/
structure Metas (Name : Type) where
  linear : Cache Name
  isa : Name → Option (Finset Name)

def Metas.empty : Metas Name := ⟨fun _ => none, fun _ => none⟩

def subLinear (isaOf : Name → Option (List Name))
    (recurse : Name → Metas Name → Metas Name × Result Name (List Name)) (sv : Name)
    (metas : Metas Name) : Metas Name × Result Name (List Name) :=
  match isaOf sv with
  | none => (metas, .ok [sv])
  | some _ => recurse sv metas

/-- `stored` as the first parent leaves it: a copy of its isa hash. -/
def firstStored (isaOf : Name → Option (List Name)) (universal sv : Name) (metas : Metas Name) :
    Finset Name :=
  match isaOf sv with
  | none => {universal, sv}
  | some _ => (metas.isa sv).getD ∅

/-- `foreach(@ISA)`: the list so far, `stored` (NULL before the first parent) and the items left;
`stored` tells what is new. -/
def dfsItems (isaOf : Name → Option (List Name)) (universal : Name)
    (recurse : Name → Metas Name → Metas Name × Result Name (List Name)) :
    List Name → List Name → Option (Finset Name) → Metas Name →
      Metas Name × Result Name (List Name × Option (Finset Name))
  | [], retval, stored, metas => (metas, .ok (retval, stored))
  | sv :: items, retval, stored, metas =>
    match subLinear isaOf recurse sv metas with
    | (metas, .error e) => (metas, .error e)
    | (metas, .ok subrv) =>
      match stored with
      | some stored =>
        let (retval, stored) := subrv.foldl Distinct.addNew (retval, stored)
        dfsItems isaOf universal recurse items retval (some stored) metas
      | none =>
        dfsItems isaOf universal recurse items (retval ++ subrv)
          (some (firstStored isaOf universal sv metas)) metas

/-- Our name goes into `stored`, which is kept as the isa hash, and the list is kept as the private
data. -/
def keepLinear (c : Name) (retval : List Name) (stored : Finset Name) (metas : Metas Name) :
    Metas Name :=
  ⟨Function.update metas.linear c (some retval),
    Function.update metas.isa c (some (insert c stored))⟩

/-- `S_mro_get_linear_isa_dfs`. The first argument is `101 - level`, and zero is `level > 100`. -/
def getLinearIsaDfs (isaOf : Name → Option (List Name)) (universal : Name) :
    Nat → Name → Metas Name → Metas Name × Result Name (List Name)
  | 0, stashhek, metas => (metas, .error (.thrown (.depthExceeded stashhek)))
  | levels + 1, stashhek, metas =>
    match metas.linear stashhek with
    | some retval => (metas, .ok retval)
    | none =>
      match (isaOf stashhek).getD [] with
      | [] => (keepLinear stashhek [stashhek] {universal} metas, .ok [stashhek])
      | isa@(_ :: _) =>
        match dfsItems isaOf universal (getLinearIsaDfs isaOf universal levels) isa [stashhek] none
          metas with
        | (metas, .error e) => (metas, .error e)
        | (metas, .ok (retval, stored)) =>
          (keepLinear stashhek retval (stored.getD ∅) metas, .ok retval)

/-- The call at level 0. -/
def linearIsaDfs (isaOf : Name → Option (List Name)) (universal : Name) (stash : Option Name)
    (metas : Metas Name) : Metas Name × Result Name (List Name) :=
  match stash with
  | none => (metas, .error (.thrown .anonymousStash))
  | some stashhek => getLinearIsaDfs isaOf universal 101 stashhek metas

/-- The metas after some calls. -/
def afterCalls (isaOf : Name → Option (List Name)) (universal : Name)
    (calls : List (Option Name)) : Metas Name :=
  calls.foldl (fun metas stash => (linearIsaDfs isaOf universal stash metas).1) Metas.empty

end XPerl.Mro
