import Mathlib.Data.BitVec
import XPerl.Framework.MergeJoin
import XPerl.Framework.Search

/-! Proto roles, and what a composition of them installs. -/

namespace XPerl.Class

open XPerl.Framework

/-- `origin_set_t`: one bit for each participant of a composition. -/
abbrev OriginSet := BitVec 32

def originSetMaxBits : Nat := 32

def bitcount32 (o : OriginSet) : Nat := (List.range originSetMaxBits).countP o.getLsbD

def composeOrigins (a b : OriginSet) : OriginSet := a ||| b

def originIsRequired (o : OriginSet) : Bool := o == 0

def originIsConflicted (o : OriginSet) : Bool := decide (bitcount32 o > 1)

def originBit (id : Nat) : OriginSet := BitVec.twoPow 32 id

/-- An optree: `methstart` holds the (padix, fieldix) pairs of its OP_METHSTART, if it has one. -/
structure Optree where
  id : Nat
  methstart : Option (List (Nat × Nat))
  deriving DecidableEq, Repr

/-- What composition reads of a CV. There is no `root` in a stub without a body. -/
structure Cv (P : Type) where
  stash : P
  root : Option Optree
  isMethod : Bool
  roleOffset : Option Nat
  fieldOwner : Option P
  deriving DecidableEq, Repr

/-- `method_slot_t`. A slot without a CV is required, and no participant is its origin. -/
structure MethodSlot (P N : Type) where
  name : N
  origins : OriginSet
  cv : Option (Cv P)
  fromField : Option N
  required : cv = none → origins = 0

/-- `field_slot_t`; of the PADNAME its name. -/
structure FieldSlot (N : Type) where
  padname : N
  origins : OriginSet

/-- `proto_role_t`. -/
structure ProtoRole (P N : Type) where
  methodSlots : List (MethodSlot P N)
  fieldSlots : List (FieldSlot N)

variable {P N : Type}

def MethodSlot.stub (name : N) : MethodSlot P N := ⟨name, 0, none, none, fun _ => rfl⟩

def MethodSlot.declared (name : N) (cv : Cv P) (fromField : Option N) : MethodSlot P N :=
  ⟨name, 0, some cv, fromField, fun _ => rfl⟩

def MethodSlot.withOrigin (bit : OriginSet) (slot : MethodSlot P N) : MethodSlot P N where
  name := slot.name
  origins := if slot.cv.isSome then bit else slot.origins
  cv := slot.cv
  fromField := slot.fromField
  required h := by
    rw [h]
    exact slot.required h

/-- Two slots of one name. The CV of the left one stays if it has one. -/
def MethodSlot.compose (a b : MethodSlot P N) : MethodSlot P N where
  name := a.name
  origins := composeOrigins a.origins b.origins
  cv := a.cv.or b.cv
  fromField := a.fromField.or b.fromField
  required h := by
    rw [Option.or_eq_none_iff] at h
    rw [composeOrigins, a.required h.1, b.required h.2]
    rfl

def FieldSlot.withOrigin (bit : OriginSet) (slot : FieldSlot N) : FieldSlot N :=
  { slot with origins := bit }

def FieldSlot.compose (a b : FieldSlot N) : FieldSlot N :=
  { a with origins := composeOrigins a.origins b.origins }

/-- The part of `S_proto_role_assign_ids` about one participant. Bits left behind in stored slots
are set anew before they are read. -/
def ProtoRole.withOrigin (id : Nat) (pr : ProtoRole P N) : ProtoRole P N where
  methodSlots := pr.methodSlots.map (MethodSlot.withOrigin (originBit id))
  fieldSlots := pr.fieldSlots.map (FieldSlot.withOrigin (originBit id))

/-- `S_proto_role_assign_ids`: the consumer has bit 0, the roles the bits from 1 on. -/
def protoRoleAssignIds (participants : List (ProtoRole P N)) : List (ProtoRole P N) :=
  participants.mapIdx ProtoRole.withOrigin

variable [LinearOrder N]

def mergeMethodSlots (a b : List (MethodSlot P N)) : List (MethodSlot P N) :=
  MergeJoin.merge MethodSlot.name MethodSlot.compose a b

def mergeFieldSlots (a b : List (FieldSlot N)) : List (FieldSlot N) :=
  MergeJoin.merge FieldSlot.padname FieldSlot.compose a b

def protoRoleComposePair (left right : ProtoRole P N) : ProtoRole P N where
  methodSlots := mergeMethodSlots left.methodSlots right.methodSlots
  fieldSlots := mergeFieldSlots left.fieldSlots right.fieldSlots

def protoRoleComposeAll (consumer : ProtoRole P N) (roles : List (ProtoRole P N)) :
    ProtoRole P N :=
  roles.foldl protoRoleComposePair consumer

/-- The slot that `S_proto_role_finalize` adds for an entry of the stash. -/
def finalizeEntry (slots : List (MethodSlot P N)) (entry : N × Option (Cv P)) :
    List (MethodSlot P N) :=
  match entry.2 with
  | none => slots
  | some cv =>
    if cv.isMethod = false then slots
    else if slots.any (fun slot => decide (slot.name = entry.1)) then slots
    else if cv.root.isNone then slots ++ [MethodSlot.stub entry.1]
    else slots ++ [MethodSlot.declared entry.1 cv none]

def protoRoleFinalize (symbols : List (N × Option (Cv P))) (pr : ProtoRole P N) :
    ProtoRole P N where
  methodSlots :=
    insertionSort (fun x y => decide (x.name > y.name)) (symbols.foldl finalizeEntry pr.methodSlots)
  fieldSlots := insertionSort (fun x y => decide (x.padname > y.padname)) pr.fieldSlots

end XPerl.Class

/-! Packages of classes and roles, and the walks of `class.c` over the roles that they compose. -/

namespace XPerl.Class

/-- The first character of the name of a field. -/
inductive Sigil where
  | scalar
  | array
  | hash
  deriving DecidableEq, Repr

/-- A field: its PADNAME with `struct padname_fieldinfo`. There is no `fieldix` before sealing. -/
structure Field (P N : Type) where
  name : N
  sigil : Sigil
  paramname : Option N
  isInherited : Bool
  isPrivate : Bool
  relativeFieldix : Nat
  fieldix : Option Nat
  storageOwner : Option P
  deriving DecidableEq, Repr

/-- `struct xpvhv_aux` of a class or role, and the symbol table: the CV of each entry's glob or
reference. -/
structure Package (P N : Type) where
  isClass : Bool
  isRole : Bool
  superclass : Option P
  pendingRoles : List P
  roles : List P
  fields : List (Field P N)
  nextFieldix : Nat
  paramMap : List (N × Nat)
  initfieldsCv : Option (Cv P)
  adjustBlocks : List (Cv P)
  protoRole : ProtoRole P N
  symbols : List (N × Option (Cv P))

/-- All packages. -/
abbrev World (P N : Type) := P → Package P N

variable {P N : Type} [DecidableEq P]

def collectUniqueRole (unique : List P) (role : P) : List P :=
  if role ∈ unique then unique else unique ++ [role]

def collectUniqueRoles (pending : List P) : List P := pending.foldl collectUniqueRole []

/-- `S_collect_role_closure` on the roles seen so far and the closure so far; the fuel bounds the
depth of the descent. -/
def collectRoleClosure (w : World P N) : Nat → List P → List P × List P → List P × List P
  | 0, _, acc => acc
  | fuel + 1, pending, acc =>
    pending.foldl (fun acc role =>
      if role ∈ acc.1 then acc
      else
        let inner := collectRoleClosure w fuel (w role).roles (acc.1 ++ [role], acc.2)
        (inner.1, inner.2 ++ [role])) acc

def classOwnFieldCount (pkg : Package P N) : Nat := pkg.fields.countP fun f => !f.isInherited

def classOwnFieldBase (pkg : Package P N) : Nat :=
  match pkg.fields.find? fun f => !f.isInherited with
  | some f => f.fieldix.getD 0 - f.relativeFieldix
  | none => 0

/-- `S_cv_clone_with_field_offset`. A clone of the provider's own CV shares its optree. -/
def cvCloneWithFieldOffset (cv : Cv P) (offset : Nat) (owner : P) : Cv P :=
  { cv with roleOffset := some offset, fieldOwner := some owner }

def cvFieldOffset (cv : Cv P) : Nat := cv.roleOffset.getD 0

variable [LinearOrder N]

/-- The errors of a composition. -/
inductive Error (P N : Type) where
  | fieldProviderConflict (field : N) (previous provider : P)
  | methodImplementationRequired (method : N) (consumer : P)
  | methodProviderConflict (method : N) (left right : P)
  | directRoleLimitExceeded (limit : Nat)
  | roleFieldLayoutMissing (role : P)
  deriving DecidableEq, Repr

/-- What sealing throws: the errors that were collected, or a single one on the way. -/
inductive Thrown (P N : Type) where
  | compositionFailed (consumer : P) (errors : List (Error P N))
  | single (error : Error P N)
  deriving DecidableEq, Repr

/-- `S_check_role_provider_fields`, on the providers seen so far and the errors so far. -/
def checkRoleProviderFields (w : World P N) (acc : List (N × P) × List (Error P N)) (provider : P) :
    List (N × P) × List (Error P N) :=
  (w provider).fields.foldl (fun acc pn =>
    match acc.1.lookup pn.name with
    | some previous =>
      if previous ≠ provider then
        (acc.1, acc.2 ++ [.fieldProviderConflict pn.name previous provider])
      else acc
    | none => ((pn.name, provider) :: acc.1, acc.2)) acc

/-- The errors of `S_check_role_provider_fields` over all providers. -/
def roleProviderFieldErrors (w : World P N) (providers : List P) : List (Error P N) :=
  (providers.foldl (checkRoleProviderFields w) ([], [])).2

/-- The binary search of `S_consumer_has_explicit` between two positions. -/
def searchExplicit (slots : List (MethodSlot P N)) (name : N) : Nat → Nat → Nat → Bool
  | 0, _, _ => false
  | fuel + 1, lo, hi =>
    if lo < hi then
      let mid := (lo + hi) / 2
      match slots[mid]? with
      | none => false
      | some slot =>
        if slot.name = name then slot.fromField.isNone && slot.cv.isSome
        else if slot.name < name then searchExplicit slots name fuel (mid + 1) hi
        else searchExplicit slots name fuel lo mid
    else false

def consumerHasExplicit (consumer : ProtoRole P N) (name : N) : Bool :=
  searchExplicit consumer.methodSlots name consumer.methodSlots.length 0
    consumer.methodSlots.length

def stashMethodCv (pkg : Package P N) (name : N) : Option (Cv P) := (pkg.symbols.lookup name).join

/-- `S_class_inherits_method`; the fuel bounds the length of the superclass chain. -/
def classInheritsMethod (w : World P N) : Nat → P → N → Bool
  | 0, _, _ => false
  | fuel + 1, stash, name =>
    match (w stash).superclass with
    | none => false
    | some super =>
      if (stashMethodCv (w super) name).any fun cv => cv.root.isSome then true
      else if (w super).isClass = false then false
      else classInheritsMethod w fuel super name

def pairs {α : Type} : List α → List (α × α)
  | [] => []
  | x :: xs => xs.map (Prod.mk x) ++ pairs xs

def providersOf (stashes : List P) (origins : OriginSet) : List P :=
  (stashes.zipIdx.filter fun entry => origins.getLsbD entry.2).map Prod.fst

/-- What `S_proto_role_resolve` reports about a method slot. -/
def resolveMethodSlot (w : World P N) (fuel : Nat) (stash : P) (consumer : ProtoRole P N)
    (stashes : List P) (slot : MethodSlot P N) : List (Error P N) :=
  let isRole := (w stash).isRole
  if originIsRequired slot.origins then
    if consumerHasExplicit consumer slot.name then []
    else if isRole = false ∧ classInheritsMethod w fuel stash slot.name then []
    else if isRole then []
    else [.methodImplementationRequired slot.name stash]
  else if originIsConflicted slot.origins then
    if consumerHasExplicit consumer slot.name then []
    else if isRole then []
    else
      (pairs ((providersOf stashes slot.origins).filter fun p => decide (p ≠ stash))).map
        fun pair => .methodProviderConflict slot.name pair.1 pair.2
  else []

/-- What `S_proto_role_resolve` reports about a field slot. -/
def resolveFieldSlot (stashes : List P) (slot : FieldSlot N) : List (Error P N) :=
  if originIsConflicted slot.origins then
    (pairs (providersOf stashes slot.origins)).map
      fun pair => .fieldProviderConflict slot.padname pair.1 pair.2
  else []

def protoRoleResolve (w : World P N) (fuel : Nat) (stash : P) (consumer composed : ProtoRole P N)
    (stashes : List P) : List (Error P N) :=
  composed.methodSlots.flatMap (resolveMethodSlot w fuel stash consumer stashes) ++
    composed.fieldSlots.flatMap (resolveFieldSlot stashes)

/-- Where the roles of the closure have their fields, and what that adds to the consumer. -/
structure RoleLayout (P N : Type) where
  bases : List (P × Nat)
  nextFieldix : Nat
  paramMap : List (N × Nat)
  initfields : List (Cv P)

def layoutRole (w : World P N) (stash : P) (layout : RoleLayout P N) (role : P) :
    RoleLayout P N where
  bases := layout.bases ++ [(role, layout.nextFieldix)]
  nextFieldix := layout.nextFieldix + classOwnFieldCount (w role)
  paramMap := (w role).fields.foldl (fun map pn =>
    match pn.paramname with
    | some name =>
      if (map.lookup name).isSome then map
      else map ++ [(name, layout.nextFieldix + pn.relativeFieldix)]
    | none => map) layout.paramMap
  initfields :=
    match (w role).initfieldsCv with
    | some cv =>
      layout.initfields ++
        [cvCloneWithFieldOffset cv (layout.nextFieldix - classOwnFieldBase (w role)) stash]
    | none => layout.initfields

def layoutRoles (w : World P N) (stash : P) (fieldRoles : List P) : RoleLayout P N :=
  fieldRoles.foldl (layoutRole w stash) ⟨[], (w stash).nextFieldix, (w stash).paramMap, []⟩

/-- The CV installed for a CV of a role: a clone that knows where its fields are in the consumer,
unless it does already. -/
def composedCv (w : World P N) (stash : P) (bases : List (P × Nat)) (cv : Cv P) :
    Except (Error P N) (Cv P) :=
  match cv.root.bind Optree.methstart with
  | none => .ok cv
  | some fieldmap =>
    let clone (offset : Nat) : Cv P :=
      if (w stash).isRole = false ∨ cvFieldOffset cv ≠ offset then
        cvCloneWithFieldOffset cv offset stash
      else cv
    if fieldmap.length = 0 then .ok (clone 0)
    else
      match bases.lookup cv.stash with
      | some base => .ok (clone (base - classOwnFieldBase (w cv.stash)))
      | none => .error (.roleFieldLayoutMissing cv.stash)

def storeSymbol (symbols : List (N × Option (Cv P))) (name : N) (cv : Cv P) :
    List (N × Option (Cv P)) :=
  if symbols.any (fun entry => decide (entry.1 = name)) then
    symbols.map fun entry => if entry.1 = name then (name, some cv) else entry
  else symbols ++ [(name, some cv)]

/-- What installing a role's entry does to the consumer's entry `existing`: nothing, or it stores a
CV. -/
def installChoice (w : World P N) (stash : P) (bases : List (P × Nat)) (consumer : ProtoRole P N)
    (name : N) (rolecv : Cv P) (existing : Option (Option (Cv P))) :
    Except (Error P N) (Option (Cv P)) :=
  if rolecv.root.isNone then
    -- a required stub goes on to the consumers of a role
    if (w stash).isRole ∧ existing = none then .ok (some rolecv) else .ok none
  else
    match existing.join with
    | none => some <$> composedCv w stash bases rolecv
    | some existcv =>
      if existcv = rolecv ∨ existcv.stash = rolecv.stash then .ok none
      else if existcv.root.isNone then some <$> composedCv w stash bases rolecv
      else if existcv.isMethod ∧ consumerHasExplicit consumer name then .ok none
      else if existcv.isMethod then
        .error (.methodProviderConflict name existcv.stash rolecv.stash)
      else some <$> composedCv w stash bases rolecv

/-- Install one entry of a role; `new` is the name that is never composed. -/
def installEntry (w : World P N) (new : N) (stash : P) (bases : List (P × Nat))
    (consumer : ProtoRole P N) (symbols : List (N × Option (Cv P)))
    (entry : N × Option (Cv P)) : Except (Error P N) (List (N × Option (Cv P))) :=
  match entry.2 with
  | none => .ok symbols
  | some rolecv =>
    if entry.1 = new ∨ rolecv.isMethod = false then .ok symbols
    else do
      match ← installChoice w stash bases consumer entry.1 rolecv (symbols.lookup entry.1) with
      | some cv => .ok (storeSymbol symbols entry.1 cv)
      | none => .ok symbols

/-- Compose one ADJUST block, which a diamond may expose more than once. -/
def composeAdjust (w : World P N) (stash : P) (bases : List (P × Nat)) (blocks : List (Cv P))
    (cv : Cv P) : Except (Error P N) (List (Cv P)) :=
  if blocks.any fun existing => decide (existing.root = cv.root) then .ok blocks
  else do
    let composed ← composedCv w stash bases cv
    .ok (blocks ++ [composed])

/-- What the direct roles install: symbols and ADJUST blocks. -/
def installRole (w : World P N) (new : N) (stash : P) (bases : List (P × Nat))
    (consumer : ProtoRole P N) (acc : List (N × Option (Cv P)) × List (Cv P)) (role : P) :
    Except (Error P N) (List (N × Option (Cv P)) × List (Cv P)) := do
  let symbols ← (w role).symbols.foldlM (installEntry w new stash bases consumer) acc.1
  let blocks ← (w role).adjustBlocks.foldlM (composeAdjust w stash bases) acc.2
  .ok (symbols, blocks)

def propagateRequired (stored composed : ProtoRole P N) : ProtoRole P N :=
  { stored with
    methodSlots := stored.methodSlots ++
      (composed.methodSlots.filter fun cslot => originIsRequired cslot.origins &&
        !stored.methodSlots.any fun slot => decide (slot.name = cslot.name)).map
          fun cslot => MethodSlot.stub cslot.name }

def composedOf (w : World P N) (stash : P) (directRoles : List P) : ProtoRole P N :=
  match protoRoleAssignIds ((stash :: directRoles).map fun p => (w p).protoRole) with
  | [] => (w stash).protoRole
  | consumer :: roles => protoRoleComposeAll consumer roles

/-- `S_proto_role_compose_and_install` for given pending roles: the consumer afterwards, and the
initializers of its roles. -/
def composePending (new : N) (fuel : Nat) (w : World P N) (stash : P) (pending : List P) :
    Except (Thrown P N) (Package P N × List (Cv P)) :=
  let aux := w stash
  if pending = [] then .ok (aux, [])
  else
    let directRoles := collectUniqueRoles pending
    let fieldRoles := (collectRoleClosure w fuel pending ([], [])).2
    let fieldErrors := roleProviderFieldErrors w (stash :: fieldRoles)
    if directRoles.length + 1 > originSetMaxBits then
      .error (.single (.directRoleLimitExceeded (originSetMaxBits - 1)))
    else
      let composed := composedOf w stash directRoles
      let errors := fieldErrors ++
        protoRoleResolve w fuel stash aux.protoRole composed (stash :: directRoles)
      if errors ≠ [] then .error (.compositionFailed stash errors)
      else
        let layout := layoutRoles w stash fieldRoles
        match directRoles.foldlM (installRole w new stash layout.bases aux.protoRole)
            (aux.symbols, aux.adjustBlocks) with
        | .error error => .error (.single error)
        | .ok (symbols, adjustBlocks) =>
          .ok ({ aux with
            nextFieldix := layout.nextFieldix
            paramMap := layout.paramMap
            roles := aux.roles ++ fieldRoles
            symbols := symbols
            adjustBlocks := adjustBlocks
            protoRole :=
              if aux.isRole then propagateRequired aux.protoRole composed else aux.protoRole },
            layout.initfields)

def protoRoleComposeAndInstall (new : N) (fuel : Nat) (w : World P N) (stash : P) :
    Except (Thrown P N) (Package P N × List (Cv P)) :=
  composePending new fuel w stash (w stash).pendingRoles

end XPerl.Class
