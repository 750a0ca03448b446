import XPerl.Framework.Exec
import XPerl.Framework.SortedList
import Mathlib.Order.Nat

/-! The compact store of `dist/XGraph/xgraph_lib.c`: adjacency lists, names, labels, mutation. -/

namespace XPerl.XGraph

open XPerl.Framework

abbrev Str := List Nat

/-- The values the functions take for names and labels; `dies` has magic that throws. -/
inductive Value where
  | undef
  | ref
  | dies
  | str (s : Str)
  deriving DecidableEq, Repr

/-- The exceptions, with the code and detail of their messages; `magic` stands for what the
magic of an argument throws, and `nullPointer` for a crash. -/
inductive XgError where
  | threadCloneRequiresFrozen
  | frozen
  | invalidArgument (detail : String)
  | invalidLabel (detail : String)
  | duplicateVertexName
  | vertexIdExhausted
  | invalidVertexId
  | duplicateVertexId
  | unknownVertex
  | unknownLabel
  | labelLimit
  | cycleRejected
  | edgeExists
  | allocationFailed (detail : String)
  | magic
  | nullPointer
  deriving DecidableEq, Repr

/-- `XG_MAX_VERTEX_ID`, `XG_MAX_LABEL_ID` and `XG_ENTRY_LABEL_BITS` of the compact build. -/
def maxVertexId : Nat := 0x00ffffff
def maxLabelId : Nat := 0xff
def entryLabelBits : Nat := 8
def uint32Max : Nat := 0xffffffff

/-- A sorted array of packed entries; its `count` is the length of `entries`. -/
structure AdjList where
  capacity : Nat
  entries : List Nat
  deriving DecidableEq, Repr

/-- A record of the vertex table; a list that was never needed is NULL. -/
structure Vertex where
  inList : Option AdjList
  outList : Option AdjList
  live : Bool
  deriving DecidableEq, Repr

structure Graph where
  vertices : Nat → Vertex
  vertexCapacity : Nat
  nextVertexId : Nat
  liveVertices : Nat
  liveEdges : Nat
  topologyGeneration : Nat
  namingGeneration : Nat
  acyclic : Bool
  strictLabels : Bool
  frozen : Bool
  unavailableThreadClone : Bool
  labelsById : List (Option Str)
  labelIdsByName : Str → Option Nat
  vertexNamesById : Nat → Option Str
  vertexIdsByName : Str → Option Nat

abbrev XgM := EStateM XgError Graph

open Exec

def xgAdjNew : AdjList := ⟨0, []⟩

/-- The loop that doubles the capacity; eight or more exceeds UINT32_MAX after 29 rounds. -/
def growCapacity (needed : Nat) : Nat → Nat → Option Nat
  | 0, _ => none
  | rounds + 1, capacity =>
    if capacity < needed then
      if capacity * 2 > uint32Max then none else growCapacity needed rounds (capacity * 2)
    else some capacity

def AdjList.reserve (list : AdjList) (needed : Nat) : Option AdjList :=
  if needed ≤ list.capacity then some list
  else
    (growCapacity needed 30 (if list.capacity ≠ 0 then list.capacity else 8)).map
      fun capacity => { list with capacity := capacity }

def AdjList.lowerBound (list : AdjList) (entry : Nat) : Nat :=
  SortedList.lowerBound list.entries entry

/-- The test `pos < count && entries[pos] == entry` at the lower bound. -/
def AdjList.holds (list : AdjList) (entry : Nat) : Bool :=
  list.entries[list.lowerBound entry]? == some entry

def AdjList.insert (list : AdjList) (entry : Nat) : Option AdjList :=
  (list.reserve (list.entries.length + 1)).map
    fun reserved => { reserved with entries := SortedList.insert list.entries entry }

def AdjList.remove (list : AdjList) (entry : Nat) : Option AdjList :=
  if list.holds entry then
    some { list with entries := list.entries.eraseIdx (list.lowerBound entry) }
  else none

/-- Labels occupy the low bits of a 32 bit word. -/
def xgPack (vertex label : Nat) : Nat :=
  ((vertex <<< entryLabelBits) ||| (label &&& maxLabelId)) % (uint32Max + 1)

def xgEntryVertex (entry : Nat) : Nat := entry >>> entryLabelBits

def xgEntryLabel (entry : Nat) : Nat := entry &&& maxLabelId

/-- `xg_new`, with the reserved labels of `xg_init_labels`. -/
def xgNew (acyclic strictLabels : Bool) : Graph where
  vertices := fun _ => ⟨none, none, false⟩
  vertexCapacity := 16
  nextVertexId := 1
  liveVertices := 0
  liveEdges := 0
  topologyGeneration := 0
  namingGeneration := 0
  acyclic := acyclic
  strictLabels := strictLabels
  frozen := false
  unavailableThreadClone := false
  labelsById := [none, none, some []]
  labelIdsByName := fun s => if s = [] then some 2 else none
  vertexNamesById := fun _ => none
  vertexIdsByName := fun _ => none

def xgRequireUsable : XgM Unit := do
  let graph ← get
  throwIf (graph.unavailableThreadClone = true) .threadCloneRequiresFrozen

def xgRequireMutable : XgM Unit := do
  xgRequireUsable
  let graph ← get
  throwIf (graph.frozen = true) .frozen

/-- `xg_normalize_name` with undef allowed: `none` is undef. -/
def xgNormalizeName : Value → XgM (Option Str)
  | .dies => throw .magic
  | .undef => return none
  | .ref => throw (.invalidArgument "references are not strings")
  | .str s => return some s

def xgNormalizeLabel : Value → XgM (Option Str)
  | .ref => throw (.invalidLabel "references are not labels")
  | value => xgNormalizeName value

/-- The rounds that double the capacity of the vertex table up to an ID. -/
def tableCapacity (id : Nat) : Nat → Nat → Nat
  | 0, capacity => capacity
  | rounds + 1, capacity =>
    if capacity ≤ id then
      tableCapacity id rounds
        (if capacity > (maxVertexId + 1) / 2 then maxVertexId + 1 else capacity * 2)
    else capacity

/-- `xg_vertex_capacity`: the new part of the table is zero. -/
def Graph.growTable (graph : Graph) (id : Nat) : Graph :=
  if id < graph.vertexCapacity then graph
  else
    { graph with
      vertices := fun i => if i < graph.vertexCapacity then graph.vertices i else ⟨none, none, false⟩
      vertexCapacity := tableCapacity id 25 graph.vertexCapacity }

def xgVertexCapacity (id : Nat) : XgM Unit := modify (Graph.growTable · id)

def Graph.hasVertex (graph : Graph) (id : Nat) : Bool :=
  id != 0 && (decide (id < graph.vertexCapacity) && (graph.vertices id).live)

def xgRequireVertex (id : Nat) : XgM Unit := do
  let graph ← get
  throwIf (graph.hasVertex id = false) .unknownVertex

def Graph.setVertex (graph : Graph) (id : Nat) (vertex : Vertex) : Graph :=
  { graph with vertices := Function.update graph.vertices id vertex }

def Graph.storeName (graph : Graph) (id : Nat) (name : Str) : Graph :=
  { graph with
    vertexIdsByName := Function.update graph.vertexIdsByName name (some id)
    vertexNamesById := Function.update graph.vertexNamesById id (some name) }

def Graph.deleteName (graph : Graph) (id : Nat) (name : Str) : Graph :=
  { graph with
    vertexIdsByName := Function.update graph.vertexIdsByName name none
    vertexNamesById := Function.update graph.vertexNamesById id none }

def Graph.touchNames (graph : Graph) : Graph :=
  { graph with namingGeneration := graph.namingGeneration + 1 }

def Graph.touchTopology (graph : Graph) : Graph :=
  { graph with topologyGeneration := graph.topologyGeneration + 1 }

def Graph.liven (graph : Graph) (id : Nat) : Graph :=
  { graph.setVertex id { graph.vertices id with live := true } with
    liveVertices := graph.liveVertices + 1 }

def xgAddVertex (name : Value) : XgM Nat := do
  xgRequireMutable
  let normalized ← xgNormalizeName name
  let graph ← get
  match normalized with
  | none => pure ()
  | some s => throwIf ((graph.vertexIdsByName s).isSome = true) .duplicateVertexName
  throwIf (graph.nextVertexId = 0 ∨ graph.nextVertexId > maxVertexId) .vertexIdExhausted
  let id := graph.nextVertexId
  modify fun graph => { graph with nextVertexId := graph.nextVertexId + 1 }
  xgVertexCapacity id
  modify (Graph.liven · id)
  match normalized with
  | none => pure ()
  | some s => modify fun graph => (graph.storeName id s).touchNames
  modify Graph.touchTopology
  return id

def xgAddVertexId (id : Nat) : XgM Unit := do
  xgRequireMutable
  throwIf (id = 0 ∨ id > maxVertexId) .invalidVertexId
  let graph ← get
  throwIf (graph.hasVertex id = true) .duplicateVertexId
  xgVertexCapacity id
  modify (Graph.liven · id)
  modify fun graph =>
    if id ≥ graph.nextVertexId then { graph with nextVertexId := id + 1 } else graph
  modify Graph.touchTopology

def xgRenameVertex (id : Nat) (name : Value) : XgM Unit := do
  xgRequireMutable
  xgRequireVertex id
  let normalized ← xgNormalizeName name
  let graph ← get
  match normalized with
  | none => pure ()
  | some s =>
    match graph.vertexIdsByName s with
    | none => pure ()
    | some holder => throwIf (holder ≠ id) .duplicateVertexName
  match graph.vertexNamesById id with
  | none => pure ()
  | some old => modify (Graph.deleteName · id old)
  match normalized with
  | none => pure ()
  | some s => modify (Graph.storeName · id s)
  modify Graph.touchNames

/-- A label that gets the next ID in both registries. -/
def Graph.internLabel (graph : Graph) (label : Str) : Graph :=
  { graph with
    labelsById := graph.labelsById ++ [some label]
    labelIdsByName := Function.update graph.labelIdsByName label (some graph.labelsById.length) }

/-- `xg_label_id`; a negative `declare` means lookup only, and the answer 0 is "unknown". -/
def xgLabelId (label : Value) (declare : Int) : XgM Nat := do
  xgRequireUsable
  let normalized ← xgNormalizeLabel label
  match normalized with
  | none => return 1
  | some [] => return 2
  | some s =>
    let graph ← get
    match graph.labelIdsByName s with
    | some id => return id
    | none =>
      if declare < 0 then return 0
      else
        throwIf (graph.strictLabels = true ∧ declare = 0) .unknownLabel
        let id := graph.labelsById.length
        throwIf (id > maxLabelId) .labelLimit
        modify fun graph => (graph.internLabel s).touchNames
        return id

def newNames (graph : Graph) : List (Option Str) → List Str → List Str
  | [], batch => batch
  | some (c :: s) :: rest, batch =>
    if graph.labelIdsByName (c :: s) = none ∧ (c :: s) ∉ batch then
      newNames graph rest ((c :: s) :: batch)
    else newNames graph rest batch
  | _ :: rest, batch => newNames graph rest batch

def Value.ofNormalized : Option Str → Value
  | none => .undef
  | some s => .str s

/-- `xg_declare_labels`: the batch is checked before it changes anything. -/
def xgDeclareLabels (labels : List Value) : XgM Unit := do
  xgRequireMutable
  if labels = [] then return ()
  else
    let normalized ← labels.mapM xgNormalizeLabel
    let graph ← get
    throwIf (graph.labelsById.length - 1 + (newNames graph normalized []).length > maxLabelId)
      .labelLimit
    normalized.forM fun label => (fun _ => ()) <$> xgLabelId (Value.ofNormalized label) 1

/-- The depth-first search of `xg_reaches`; each vertex is pushed at most once. -/
def reachLoop (graph : Graph) (wanted : Nat) : Nat → List Nat → List Nat → Bool
  | 0, _, _ => false
  | _ + 1, [], _ => false
  | rounds + 1, id :: stack, seen =>
    if id = wanted then true
    else if id ≥ graph.vertexCapacity ∨ (graph.vertices id).live = false then
      reachLoop graph wanted rounds stack seen
    else
      match (graph.vertices id).outList with
      | none => reachLoop graph wanted rounds stack seen
      | some out =>
        let (stack, seen) := out.entries.foldl (fun (stack, seen) entry =>
          if xgEntryVertex entry ∈ seen then (stack, seen)
          else (xgEntryVertex entry :: stack, xgEntryVertex entry :: seen)) (stack, seen)
        reachLoop graph wanted rounds stack seen

def xgReaches (graph : Graph) (start wanted : Nat) : Bool :=
  reachLoop graph wanted (graph.vertexCapacity + 1) [start] [start]

def Graph.setOut (graph : Graph) (id : Nat) (list : AdjList) : Graph :=
  graph.setVertex id { graph.vertices id with outList := some list }

def Graph.setIn (graph : Graph) (id : Nat) (list : AdjList) : Graph :=
  graph.setVertex id { graph.vertices id with inList := some list }

def Graph.ensureOut (graph : Graph) (id : Nat) : Graph :=
  match (graph.vertices id).outList with
  | none => graph.setOut id xgAdjNew
  | some _ => graph

def Graph.ensureIn (graph : Graph) (id : Nat) : Graph :=
  match (graph.vertices id).inList with
  | none => graph.setIn id xgAdjNew
  | some _ => graph

def Graph.out (graph : Graph) (id : Nat) : AdjList := (graph.vertices id).outList.getD xgAdjNew

def Graph.inn (graph : Graph) (id : Nat) : AdjList := (graph.vertices id).inList.getD xgAdjNew

def updateList (read : Graph → AdjList) (write : Graph → AdjList → Graph)
    (f : AdjList → Option AdjList) : XgM Unit := do
  let graph ← get
  match f (read graph) with
  | none => throw (.allocationFailed "adjacency list is too large")
  | some list => modify (write · list)

/-- The end of `xg_add_edge`: reserve on both sides, then install both entries. -/
def installEdge (source target lid : Nat) : XgM Unit := do
  let outEntry := xgPack target lid
  let inEntry := xgPack source lid
  modify (Graph.ensureOut · source)
  modify (Graph.ensureIn · target)
  let graph ← get
  throwIf ((graph.out source).holds outEntry = true) .edgeExists
  updateList (Graph.out · source) (Graph.setOut · source) fun out =>
    out.reserve (out.entries.length + 1)
  updateList (Graph.inn · target) (Graph.setIn · target) fun inn =>
    inn.reserve (inn.entries.length + 1)
  updateList (Graph.out · source) (Graph.setOut · source) (AdjList.insert · outEntry)
  updateList (Graph.inn · target) (Graph.setIn · target) (AdjList.insert · inEntry)
  modify fun graph => ({ graph with liveEdges := graph.liveEdges + 1 } : Graph).touchTopology

def xgAddEdge (source target : Nat) (label : Value) : XgM Unit := do
  xgRequireMutable
  let normalized ← xgNormalizeLabel label
  xgRequireVertex source
  xgRequireVertex target
  let graph ← get
  throwIf (graph.acyclic = true ∧ (source = target ∨ xgReaches graph target source = true))
    .cycleRejected
  let lid ← xgLabelId (Value.ofNormalized normalized) 0
  installEdge source target lid

def xgDeleteEdge (source target : Nat) (label : Value) : XgM Bool := do
  xgRequireMutable
  xgRequireVertex source
  xgRequireVertex target
  let lid ← xgLabelId label (-1)
  if lid = 0 then return false
  else
    let graph ← get
    match (graph.vertices source).outList, (graph.vertices target).inList with
    | some out, some inn =>
      match out.remove (xgPack target lid) with
      | none => return false
      | some out =>
        modify (Graph.setOut · source out)
        match inn.remove (xgPack source lid) with
        | none => throw (.invalidArgument "adjacency invariant violated")
        | some inn =>
          modify (Graph.setIn · target inn)
          modify fun graph =>
            ({ graph with liveEdges := graph.liveEdges - 1 } : Graph).touchTopology
          return true
    | _, _ => return false

def AdjList.removed (list : AdjList) (entry : Nat) : AdjList := (list.remove entry).getD list

def modifyIn (id : Nat) (f : AdjList → AdjList) : XgM Unit := do
  let graph ← get
  match (graph.vertices id).inList with
  | none => throw .nullPointer
  | some list => modify (Graph.setIn · id (f list))

def modifyOut (id : Nat) (f : AdjList → AdjList) : XgM Unit := do
  let graph ← get
  match (graph.vertices id).outList with
  | none => throw .nullPointer
  | some list => modify (Graph.setOut · id (f list))

def dropEdge : XgM Unit :=
  modify fun graph => { graph with liveEdges := graph.liveEdges - 1 }

/-- `while (out && out->count)`, for at most as many rounds as the first argument says: the
neighbour's list loses its entry, then the vertex's own list. -/
def dropOuts (id : Nat) : Nat → XgM Unit
  | 0 => return ()
  | rounds + 1 => do
    let graph ← get
    match (graph.out id).entries with
    | [] => return ()
    | entry :: _ =>
      modifyIn (xgEntryVertex entry) (AdjList.removed · (xgPack id (xgEntryLabel entry)))
      modifyOut id (AdjList.removed · entry)
      dropEdge
      dropOuts id rounds

def dropIns (id : Nat) : Nat → XgM Unit
  | 0 => return ()
  | rounds + 1 => do
    let graph ← get
    match (graph.inn id).entries with
    | [] => return ()
    | entry :: _ =>
      modifyOut (xgEntryVertex entry) (AdjList.removed · (xgPack id (xgEntryLabel entry)))
      modifyIn id (AdjList.removed · entry)
      dropEdge
      dropIns id rounds

def xgDeleteVertex (id : Nat) : XgM Bool := do
  xgRequireMutable
  let graph ← get
  if graph.hasVertex id = false then return false
  else
    dropOuts id (graph.out id).entries.length
    let graph ← get
    dropIns id (graph.inn id).entries.length
    let graph ← get
    match graph.vertexNamesById id with
    | none => pure ()
    | some name => modify fun graph => (graph.deleteName id name).touchNames
    modify fun graph =>
      ({ graph.setVertex id { graph.vertices id with live := false } with
        liveVertices := graph.liveVertices - 1 } : Graph).touchTopology
    return true

/-- The mutations of a graph. -/
inductive Op where
  | addVertex (name : Value)
  | addVertexId (id : Nat)
  | renameVertex (id : Nat) (name : Value)
  | deleteVertex (id : Nat)
  | labelId (label : Value) (declare : Int)
  | declareLabels (labels : List Value)
  | addEdge (source target : Nat) (label : Value)
  | deleteEdge (source target : Nat) (label : Value)
  deriving DecidableEq, Repr

/-- What a mutation returns. -/
inductive Answer where
  | nothing
  | id (n : Nat)
  | flag (b : Bool)
  deriving DecidableEq, Repr

def Op.call : Op → XgM Answer
  | .addVertex name => Answer.id <$> xgAddVertex name
  | .addVertexId id => (fun _ => Answer.nothing) <$> xgAddVertexId id
  | .renameVertex id name => (fun _ => Answer.nothing) <$> xgRenameVertex id name
  | .deleteVertex id => Answer.flag <$> xgDeleteVertex id
  | .labelId label declare => Answer.id <$> xgLabelId label declare
  | .declareLabels labels => (fun _ => Answer.nothing) <$> xgDeclareLabels labels
  | .addEdge source target label => (fun _ => Answer.nothing) <$> xgAddEdge source target label
  | .deleteEdge source target label => Answer.flag <$> xgDeleteEdge source target label

end XPerl.XGraph
