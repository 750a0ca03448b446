import XPerl.Class.Algebra
import XPerl.Class.Compose

/-! When a composition is the union of its participants, and what then does not depend on order. -/

namespace XPerl.Class

open XPerl.Framework XPerl.Framework.MergeJoin

variable {P N : Type} [LinearOrder N]

def methodLists (w : World P N) (stashes : List P) : List (List (MethodSlot P N)) :=
  stashes.map fun p => (w p).protoRole.methodSlots

def fieldLists (w : World P N) (stashes : List P) : List (List (FieldSlot N)) :=
  stashes.map fun p => (w p).protoRole.fieldSlots

abbrev participants [DecidableEq P] (stash : P) (pending : List P) :
    List P := stash :: collectUniqueRoles pending

theorem methodSlots_composeAll (consumer : ProtoRole P N) (roles : List (ProtoRole P N)) :
    (protoRoleComposeAll consumer roles).methodSlots =
      mergeAll MethodSlot.name MethodSlot.compose consumer.methodSlots
        (roles.map ProtoRole.methodSlots) := by
  induction roles generalizing consumer with
  | nil => rfl
  | cons role roles ih => exact ih (protoRoleComposePair consumer role)

theorem fieldSlots_composeAll (consumer : ProtoRole P N) (roles : List (ProtoRole P N)) :
    (protoRoleComposeAll consumer roles).fieldSlots =
      mergeAll FieldSlot.padname FieldSlot.compose consumer.fieldSlots
        (roles.map ProtoRole.fieldSlots) := by
  induction roles generalizing consumer with
  | nil => rfl
  | cons role roles ih => exact ih (protoRoleComposePair consumer role)

theorem map_mapIdx_map {α β γ δ ε : Type} (xs : List α) {f : α → β} {g : Nat → β → γ} {h : γ → ε}
    {f' : α → δ} {g' : Nat → δ → ε} (heq : ∀ i x, h (g i (f x)) = g' i (f' x)) :
    ((xs.map f).mapIdx g).map h = (xs.map f').mapIdx g' := by
  apply List.ext_getElem?
  intro i
  simp only [List.getElem?_map, List.getElem?_mapIdx]
  cases xs[i]? with
  | none => rfl
  | some x => exact congrArg some (heq i x)

theorem methodSlots_composedOf (w : World P N) (stash : P) (roles : List P) :
    (composedOf w stash roles).methodSlots =
      (methodAlgebra P N).composed (methodLists w (stash :: roles)) := by
  simp only [composedOf, protoRoleAssignIds, SlotAlgebra.composed, SlotAlgebra.stamped, methodLists,
    List.map_cons, List.mapIdx_cons, methodSlots_composeAll]
  congr 1
  exact map_mapIdx_map roles fun _ _ => rfl

theorem fieldSlots_composedOf (w : World P N) (stash : P) (roles : List P) :
    (composedOf w stash roles).fieldSlots =
      (fieldAlgebra N).composed (fieldLists w (stash :: roles)) := by
  simp only [composedOf, protoRoleAssignIds, SlotAlgebra.composed, SlotAlgebra.stamped, fieldLists,
    List.map_cons, List.mapIdx_cons, fieldSlots_composeAll]
  congr 1
  exact map_mapIdx_map roles fun _ _ => rfl

namespace SlotAlgebra

variable {α : Type} {A : SlotAlgebra α N} {stashes stashes' : List P} {slots : P → List α}
  {zs zs' : List α} {z : α} {n : N}

def definers (A : SlotAlgebra α N) (slots : P → List α) (stashes : List P) (n : N) : List P :=
  stashes.filter fun p => (slots p).any fun y => decide (A.name y = n) && A.defines y

def NamesWith (A : SlotAlgebra α N) (test : OriginSet → Bool) (zs : List α) (n : N) : Prop :=
  ∃ z ∈ zs, A.name z = n ∧ test (A.origins z) = true

def SameNames (A : SlotAlgebra α N) (zs zs' : List α) : Prop :=
  ∀ n, (A.NamesWith originIsRequired zs n ↔ A.NamesWith originIsRequired zs' n) ∧
    (A.NamesWith (fun o => !originIsRequired o) zs n ↔
      A.NamesWith (fun o => !originIsRequired o) zs' n) ∧
    (A.NamesWith originIsConflicted zs n ↔ A.NamesWith originIsConflicted zs' n)

theorem IsUnion.bit (h : A.IsUnion (stashes.map slots) zs) (hz : z ∈ zs) {i : Nat}
    (hi : i < originSetMaxBits) : (A.origins z).getLsbD i =
      (stashes[i]?).any fun p => (slots p).any fun y => decide (A.name y = A.name z) && A.defines y := by
  obtain ⟨xs, hxs, x, hx, hname⟩ := h.1 z hz
  obtain ⟨z', hfilter, hbits⟩ := h.2 xs hxs x hx
  have hmem : z ∈ zs.filter fun y => decide (A.name y = A.name x) :=
    List.mem_filter.2 ⟨hz, decide_eq_true hname.symm⟩
  rw [hfilter, List.mem_singleton] at hmem
  rw [hmem, Bool.eq_iff_iff, hbits i hi, List.getElem?_map, ← hmem, ← hname]
  cases stashes[i]? with
  | none => simp
  | some p => simp

theorem IsUnion.providers (h : A.IsUnion (stashes.map slots) zs) (hz : z ∈ zs)
    (hlen : stashes.length ≤ originSetMaxBits) :
    providersOf stashes (A.origins z) = A.definers slots stashes (A.name z) := by
  have hfilter : (stashes.zipIdx.filter fun entry => (A.origins z).getLsbD entry.2) =
      stashes.zipIdx.filter ((fun p => (slots p).any fun y =>
        decide (A.name y = A.name z) && A.defines y) ∘ Prod.fst) := by
    apply List.filter_congr
    rintro ⟨p, i⟩ hentry
    have hget := List.mem_zipIdx_iff_getElem?.1 hentry
    have hi := (List.getElem?_eq_some_iff.1 hget).1
    rw [h.bit hz (Nat.lt_of_lt_of_le hi hlen), hget]
    rfl
  rw [providersOf, hfilter, ← List.filter_map, List.zipIdx_map_fst, definers]

theorem IsUnion.bitcount (h : A.IsUnion (stashes.map slots) zs) (hz : z ∈ zs)
    (hlen : stashes.length ≤ originSetMaxBits) :
    bitcount32 (A.origins z) = (A.definers slots stashes (A.name z)).length := by
  rw [definers, ← List.countP_eq_length_filter, ← countP_range_getElem? _ stashes _ hlen, bitcount32]
  apply List.countP_congr
  intro i hi
  rw [h.bit hz (List.mem_range.1 hi)]

theorem originIsRequired_eq (o : OriginSet) : originIsRequired o = decide (bitcount32 o = 0) := by
  rw [originIsRequired, Bool.eq_iff_iff, beq_iff_eq, decide_eq_true_eq, bitcount32,
    List.countP_eq_zero]
  constructor
  · rintro rfl i -
    simp
  · intro h
    apply BitVec.eq_of_getLsbD_eq
    intro i hi
    have hbit := h i (List.mem_range.2 hi)
    simpa using hbit

theorem definers_perm (A : SlotAlgebra α N) (slots : P → List α) (h : stashes.Perm stashes')
    (n : N) :
    (A.definers slots stashes n).Perm (A.definers slots stashes' n) :=
  h.filter _

theorem IsUnion.counterpart (h : A.IsUnion (stashes.map slots) zs)
    (h' : A.IsUnion (stashes'.map slots) zs') (hperm : stashes.Perm stashes')
    (hlen : stashes.length ≤ originSetMaxBits) (hz : z ∈ zs) :
    ∃ z' ∈ zs', A.name z' = A.name z ∧ bitcount32 (A.origins z') = bitcount32 (A.origins z) ∧
      (providersOf stashes' (A.origins z')).Perm (providersOf stashes (A.origins z)) := by
  obtain ⟨xs, hxs, x, hx, hname⟩ := h.1 z hz
  obtain ⟨p, hp, rfl⟩ := List.mem_map.1 hxs
  obtain ⟨z', hfilter, -⟩ := h'.2 _ (List.mem_map_of_mem (hperm.mem_iff.1 hp)) x hx
  obtain ⟨hz', hname'⟩ := List.mem_filter.1 (hfilter ▸ List.mem_singleton_self z')
  have hsame : A.name z' = A.name z := (of_decide_eq_true hname').trans hname
  have hlen' : stashes'.length ≤ originSetMaxBits := hperm.length_eq ▸ hlen
  have hdefiners := definers_perm A slots hperm.symm (A.name z)
  refine ⟨z', hz', hsame, ?_, ?_⟩
  · rw [h'.bitcount hz' hlen', h.bitcount hz hlen, hsame, hdefiners.length_eq]
  · rw [h'.providers hz' hlen', h.providers hz hlen, hsame]
    exact hdefiners

theorem IsUnion.namesWith (h : A.IsUnion (stashes.map slots) zs)
    (h' : A.IsUnion (stashes'.map slots) zs') (hperm : stashes.Perm stashes')
    (hlen : stashes.length ≤ originSetMaxBits) {test : OriginSet → Bool}
    (htest : ∀ o o', bitcount32 o = bitcount32 o' → test o = test o')
    (hn : A.NamesWith test zs n) : A.NamesWith test zs' n := by
  obtain ⟨z, hz, rfl, hpass⟩ := hn
  obtain ⟨z', hz', hname, hcount, -⟩ := h.counterpart h' hperm hlen hz
  exact ⟨z', hz', hname, htest _ _ hcount ▸ hpass⟩

theorem IsUnion.sameNames (h : A.IsUnion (stashes.map slots) zs)
    (h' : A.IsUnion (stashes'.map slots) zs') (hperm : stashes.Perm stashes')
    (hlen : stashes.length ≤ originSetMaxBits) : A.SameNames zs zs' := by
  have hboth : ∀ (test : OriginSet → Bool),
      (∀ o o', bitcount32 o = bitcount32 o' → test o = test o') →
      ∀ n, A.NamesWith test zs n ↔ A.NamesWith test zs' n := by
    intro test htest n
    exact ⟨h.namesWith h' hperm hlen htest,
      h'.namesWith h hperm.symm (hperm.length_eq ▸ hlen) htest⟩
  intro n
  refine ⟨hboth _ ?_ n, hboth _ ?_ n, hboth _ ?_ n⟩
  · intro o o' heq
    rw [originIsRequired_eq, originIsRequired_eq, heq]
  · intro o o' heq
    rw [originIsRequired_eq, originIsRequired_eq, heq]
  · intro o o' heq
    rw [originIsConflicted, originIsConflicted, heq]

end SlotAlgebra

section Errors

variable {w : World P N} {fuel : Nat} {stash : P} {consumer : ProtoRole P N} {stashes stashes' : List P}

theorem pairs_eq_nil {α : Type} {xs : List α} : pairs xs = [] ↔ xs.length < 2 := by
  match xs with
  | [] => simp [pairs]
  | [x] => simp [pairs]
  | x :: y :: xs => simp [pairs]

variable [DecidableEq P]

theorem resolveMethodSlot_eq_nil {slot slot' : MethodSlot P N} (hname : slot'.name = slot.name)
    (hcount : bitcount32 slot'.origins = bitcount32 slot.origins)
    (hperm : (providersOf stashes' slot'.origins).Perm (providersOf stashes slot.origins))
    (h : resolveMethodSlot w fuel stash consumer stashes slot = []) :
    resolveMethodSlot w fuel stash consumer stashes' slot' = [] := by
  have hlength := (hperm.filter fun p => decide (p ≠ stash)).length_eq
  have hpairs : (pairs ((providersOf stashes' slot'.origins).filter fun p => decide (p ≠ stash)) = [] ↔
      pairs ((providersOf stashes slot.origins).filter fun p => decide (p ≠ stash)) = []) := by
    rw [pairs_eq_nil, pairs_eq_nil, hlength]
  rw [resolveMethodSlot] at h ⊢
  simp only [SlotAlgebra.originIsRequired_eq, originIsConflicted, hname, hcount] at h ⊢
  split_ifs at h ⊢ <;> simp_all

omit [LinearOrder N] [DecidableEq P] in
theorem resolveFieldSlot_eq_nil {slot slot' : FieldSlot N}
    (hcount : bitcount32 slot'.origins = bitcount32 slot.origins)
    (hperm : (providersOf stashes' slot'.origins).Perm (providersOf stashes slot.origins))
    (h : resolveFieldSlot stashes slot = []) : resolveFieldSlot stashes' slot' = [] := by
  have hpairs : (pairs (providersOf stashes' slot'.origins) = [] ↔
      pairs (providersOf stashes slot.origins) = []) := by
    rw [pairs_eq_nil, pairs_eq_nil, hperm.length_eq]
  rw [resolveFieldSlot] at h ⊢
  simp only [originIsConflicted, hcount] at h ⊢
  split_ifs at h ⊢ <;> simp_all

def checkProviderField (acc : List (N × P) × List (Error P N)) (field : N × P) :
    List (N × P) × List (Error P N) :=
  match acc.1.lookup field.1 with
  | some previous =>
    if previous ≠ field.2 then
      (acc.1, acc.2 ++ [.fieldProviderConflict field.1 previous field.2])
    else acc
  | none => (field :: acc.1, acc.2)

def providerFields (w : World P N) (providers : List P) : List (N × P) :=
  providers.flatMap fun provider => (w provider).fields.map fun pn => (pn.name, provider)

theorem foldl_checkProviderField (fields seen : List (N × P)) (errors : List (Error P N)) :
    (fields.foldl checkProviderField (seen, errors)).2 = [] ↔ errors = [] ∧
      ∀ f ∈ fields, ∀ q, seen.lookup f.1 = some q ∨ (f.1, q) ∈ fields → q = f.2 := by
  induction fields generalizing seen errors with
  | nil => simp
  | cons f fields ih =>
    obtain ⟨n, p⟩ := f
    -- A field that is seen without an error makes its provider the one of its name.
    have hnext : ∀ seen' : List (N × P),
        (∀ m q, seen'.lookup m = some q ↔ seen.lookup m = some q ∨ (m, q) = (n, p)) →
        (∀ q, seen.lookup n = some q → q = p) →
        ((∀ f ∈ fields, ∀ q, seen'.lookup f.1 = some q ∨ (f.1, q) ∈ fields → q = f.2) ↔
          ∀ f ∈ (n, p) :: fields, ∀ q,
            seen.lookup f.1 = some q ∨ (f.1, q) ∈ (n, p) :: fields → q = f.2) := by
      intro seen' hlookup hp
      simp only [hlookup, List.mem_cons, or_assoc]
      constructor
      · rintro h f (rfl | hf) q hq
        · rcases hq with hq | hq | hq
          · exact hp q hq
          · exact (Prod.mk.inj hq).2
          · exact (h (n, q) hq p (Or.inr (Or.inl rfl))).symm
        · exact h f hf q hq
      · exact fun h f hf q hq => h f (Or.inr hf) q hq
    rw [List.foldl_cons, checkProviderField]
    cases hseen : seen.lookup n with
    | some q =>
      by_cases hq : q ≠ p
      · simp only [if_pos hq, ih]
        constructor
        · rintro ⟨h, -⟩
          exact absurd h (List.append_ne_nil_of_right_ne_nil _ (List.cons_ne_nil _ _))
        · rintro ⟨-, h⟩
          exact absurd (h (n, p) List.mem_cons_self q (Or.inl hseen)) hq
      · obtain rfl := not_not.1 hq
        simp only [if_neg hq, ih]
        refine and_congr_right fun _ => hnext seen ?_ fun r hr => ?_
        · intro m r
          constructor
          · exact Or.inl
          · rintro (h | h)
            · exact h
            · obtain ⟨rfl, rfl⟩ := Prod.mk.inj h
              exact hseen
        · exact Option.some.inj (hr.symm.trans hseen)
    | none =>
      simp only [ih]
      refine and_congr_right fun _ => hnext _ ?_ fun r hr => ?_
      · intro m r
        rw [List.lookup_cons]
        by_cases hm : m = n
        · subst hm
          simp [hseen, eq_comm]
        · have hbeq : (m == n) = false := beq_eq_false_iff_ne.2 hm
          simp [hbeq, hm]
      · rw [hseen] at hr
        cases hr

theorem roleProviderFieldErrors_eq_nil (w : World P N) (providers : List P) :
    roleProviderFieldErrors w providers = [] ↔
      ∀ f ∈ providerFields w providers, ∀ q, (f.1, q) ∈ providerFields w providers → q = f.2 := by
  have hfold : ∀ acc, providers.foldl (checkRoleProviderFields w) acc =
      (providerFields w providers).foldl checkProviderField acc := by
    intro acc
    rw [providerFields, List.foldl_flatMap]
    congr 1
    funext acc provider
    rw [List.foldl_map]
    rfl
  rw [roleProviderFieldErrors, hfold, foldl_checkProviderField]
  simp

omit [LinearOrder N] [DecidableEq P] in
theorem providerFields_congr {providers providers' : List P}
    (h : ∀ p, p ∈ providers ↔ p ∈ providers') (f : N × P) :
    f ∈ providerFields w providers ↔ f ∈ providerFields w providers' := by
  simp only [providerFields, List.mem_flatMap, h]

end Errors

section Order

variable [DecidableEq P] {w : World P N} {fuel : Nat} {stash : P} {pending pending' : List P} {new : N}

abbrev composedPending (w : World P N) (stash : P) (pending : List P) : ProtoRole P N :=
  composedOf w stash (collectUniqueRoles pending)

/-- Both slot maps have one slot for each name, with the participants that define it. -/
def IsUnionOf (w : World P N) (stash : P) (pending : List P) : Prop :=
  (methodAlgebra P N).IsUnion (methodLists w (participants stash pending))
      (composedPending w stash pending).methodSlots ∧
    (fieldAlgebra N).IsUnion (fieldLists w (participants stash pending))
      (composedPending w stash pending).fieldSlots

/-- All slots of one name are at one path. -/
def AgreeOf (w : World P N) (stash : P) (pending : List P) : Prop :=
  Agree MethodSlot.name (methodLists w (participants stash pending)) ∧
    Agree FieldSlot.padname (fieldLists w (participants stash pending))

def ReportsErrors (new : N) (fuel : Nat) (w : World P N) (stash : P) (pending : List P) : Prop :=
  ∃ errors, composePending new fuel w stash pending = .error (.compositionFailed stash errors)

/-- Nothing that a composition says depends on the order of the roles or on repeats. -/
structure SameOutcome (new : N) (fuel : Nat) (w : World P N) (stash : P)
    (pending pending' : List P) : Prop where
  methods : (methodAlgebra P N).SameNames (composedPending w stash pending).methodSlots
    (composedPending w stash pending').methodSlots
  fields : (fieldAlgebra N).SameNames (composedPending w stash pending).fieldSlots
    (composedPending w stash pending').fieldSlots
  errors : ReportsErrors new fuel w stash pending ↔ ReportsErrors new fuel w stash pending'

theorem isUnionOf_iff : IsUnionOf w stash pending ↔ AgreeOf w stash pending := by
  rw [IsUnionOf, AgreeOf, composedPending, methodSlots_composedOf, fieldSlots_composedOf]
  exact and_congr (SlotAlgebra.isUnion_iff _) (SlotAlgebra.isUnion_iff _)

theorem participants_perm (stash : P) (h : ∀ p, p ∈ pending ↔ p ∈ pending') :
    (participants stash pending).Perm (participants stash pending') :=
  (collectUniqueRoles_perm h).cons stash

theorem AgreeOf.congr (h : ∀ p, p ∈ pending ↔ p ∈ pending') (hagree : AgreeOf w stash pending) :
    AgreeOf w stash pending' := by
  have hmem {α : Type} (f : P → α) (x : α) : x ∈ (participants stash pending').map f ↔
      x ∈ (participants stash pending).map f := ((participants_perm stash h).map f).mem_iff.symm
  constructor
  · intro xs hxs ys hys
    exact hagree.1 xs ((hmem _ xs).1 hxs) ys ((hmem _ ys).1 hys)
  · intro xs hxs ys hys
    exact hagree.2 xs ((hmem _ xs).1 hxs) ys ((hmem _ ys).1 hys)

theorem reportsErrors_iff (hlimit : (collectUniqueRoles pending).length + 1 ≤ originSetMaxBits) :
    ReportsErrors new fuel w stash pending ↔ pending ≠ [] ∧
      ¬ (roleProviderFieldErrors w (stash :: (collectRoleClosure w fuel pending ([], [])).2) = [] ∧
        protoRoleResolve w fuel stash (w stash).protoRole (composedPending w stash pending)
          (participants stash pending) = []) := by
  rw [ReportsErrors, composePending, ← List.append_eq_nil_iff]
  by_cases hpending : pending = []
  · simp [hpending]
  · rw [if_neg hpending]
    simp only [if_neg (Nat.not_lt.2 hlimit)]
    by_cases herrors : roleProviderFieldErrors w
        (stash :: (collectRoleClosure w fuel pending ([], [])).2) ++
        protoRoleResolve w fuel stash (w stash).protoRole (composedPending w stash pending)
          (participants stash pending) = []
    · rw [if_neg (not_not.2 herrors)]
      refine iff_of_false ?_ fun h => h.2 herrors
      rintro ⟨errors, h⟩
      split at h <;> cases h
    · rw [if_pos herrors]
      exact iff_of_true ⟨_, rfl⟩ ⟨hpending, herrors⟩

theorem protoRoleResolve_eq_nil {stashes stashes' : List P} {composed composed' : ProtoRole P N}
    (hmethods : (methodAlgebra P N).IsUnion (methodLists w stashes) composed.methodSlots)
    (hfields : (fieldAlgebra N).IsUnion (fieldLists w stashes) composed.fieldSlots)
    (hmethods' : (methodAlgebra P N).IsUnion (methodLists w stashes') composed'.methodSlots)
    (hfields' : (fieldAlgebra N).IsUnion (fieldLists w stashes') composed'.fieldSlots)
    (hperm : stashes'.Perm stashes) (hlen : stashes'.length ≤ originSetMaxBits)
    {consumer : ProtoRole P N} (h : protoRoleResolve w fuel stash consumer composed stashes = []) :
    protoRoleResolve w fuel stash consumer composed' stashes' = [] := by
  rw [protoRoleResolve, List.append_eq_nil_iff, List.flatMap_eq_nil_iff,
    List.flatMap_eq_nil_iff] at h ⊢
  constructor
  · intro slot' hslot'
    obtain ⟨slot, hslot, hname, hcount, hproviders⟩ :=
      hmethods'.counterpart hmethods hperm hlen hslot'
    exact resolveMethodSlot_eq_nil hname.symm hcount.symm hproviders.symm (h.1 slot hslot)
  · intro slot' hslot'
    obtain ⟨slot, hslot, -, hcount, hproviders⟩ := hfields'.counterpart hfields hperm hlen hslot'
    exact resolveFieldSlot_eq_nil hcount.symm hproviders.symm (h.2 slot hslot)

/-- The composition is a union, whatever the order and the repeats of the roles, exactly when all
slots of one name are at one path. -/
theorem composition_iff (rank : P → Nat) (hacyclic : Acyclic w rank)
    (hfuel : ∀ r ∈ pending, rank r < fuel) (hlimit : (collectUniqueRoles pending).length ≤ 31) :
    (IsUnionOf w stash pending ∧ ∀ pending' : List P, (∀ p, p ∈ pending ↔ p ∈ pending') →
      SameOutcome new fuel w stash pending pending') ↔ AgreeOf w stash pending := by
  refine ⟨fun h => isUnionOf_iff.1 h.1, fun hagree => ⟨isUnionOf_iff.2 hagree, ?_⟩⟩
  intro pending' hsame
  have hunion := isUnionOf_iff.2 hagree
  have hunion' := isUnionOf_iff.2 (hagree.congr hsame)
  have hperm := participants_perm stash hsame
  have hlen : (participants stash pending).length ≤ originSetMaxBits := Nat.succ_le_succ hlimit
  have hlen' : (participants stash pending').length ≤ originSetMaxBits := hperm.length_eq ▸ hlen
  refine ⟨hunion.1.sameNames hunion'.1 hperm hlen, hunion.2.sameNames hunion'.2 hperm hlen, ?_⟩
  have hclosure : ∀ p, p ∈ (stash :: (collectRoleClosure w fuel pending ([], [])).2) ↔
      p ∈ (stash :: (collectRoleClosure w fuel pending' ([], [])).2) := by
    intro p
    rw [List.mem_cons, List.mem_cons, mem_closure hacyclic hfuel,
      mem_closure hacyclic fun r hr => hfuel r ((hsame r).2 hr)]
    simp only [hsame]
  have hnil : pending = [] ↔ pending' = [] := by
    simp only [List.eq_nil_iff_forall_not_mem, hsame]
  rw [reportsErrors_iff hlen, reportsErrors_iff hlen', roleProviderFieldErrors_eq_nil,
    roleProviderFieldErrors_eq_nil]
  simp only [providerFields_congr hclosure]
  refine and_congr (not_congr hnil) (not_congr (and_congr_right fun _ => ?_))
  exact ⟨protoRoleResolve_eq_nil hunion.1 hunion.2 hunion'.1 hunion'.2 hperm.symm hlen',
    protoRoleResolve_eq_nil hunion'.1 hunion'.2 hunion.1 hunion.2 hperm hlen⟩

def methodsOnly (isRole : Bool) (pending : List Nat) (symbols : List (Nat × Option (Cv Nat))) :
    Package Nat Nat where
  isClass := true
  isRole := isRole
  superclass := none
  pendingRoles := pending
  roles := []
  fields := []
  nextFieldix := 0
  paramMap := []
  initfieldsCv := none
  adjustBlocks := []
  protoRole := protoRoleFinalize symbols ⟨[], []⟩
  symbols := symbols

/-- The first and the third package require the method 0; the second one requires the method 1
and composes the first one. -/
def requiring : World Nat Nat
  | 1 => methodsOnly true [] [(0, some ⟨1, none, true, none, none⟩)]
  | 2 => methodsOnly true [1] [(1, some ⟨2, none, true, none, none⟩)]
  | 3 => methodsOnly true [] [(0, some ⟨3, none, true, none, none⟩)]
  | _ => methodsOnly false [2, 3] []

theorem composition_iff_roles : AgreeOf requiring 0 [1, 3] ∧ IsUnionOf requiring 0 [1, 3] ∧
    ∀ pending' : List Nat, (∀ p, p ∈ [1, 3] ↔ p ∈ pending') →
      SameOutcome 9 1 requiring 0 [1, 3] pending' := by
  have hagree : AgreeOf requiring 0 [1, 3] := by
    constructor <;> apply agree_of_increasing
    · decide
    · decide
  refine ⟨hagree, (composition_iff (fun _ => 0) ?_ ?_ ?_).2 hagree⟩
  · intro p q hq
    have hnone : (requiring p).roles = [] := by
      unfold requiring
      split <;> rfl
    rw [hnone] at hq
    cases hq
  · decide
  · decide

/-- Sealing the second package puts the method 0 behind the method 1. -/
theorem composition_duplicates : ∃ sealed, protoRoleComposeAndInstall 9 1 requiring 2 = .ok sealed ∧
    ¬ IsUnionOf (Function.update requiring 2 sealed.1) 0 [2, 3] := by
  refine ⟨_, rfl, ?_⟩
  intro h
  obtain ⟨z, hz, -⟩ := h.1.2 [MethodSlot.stub 0] (List.mem_iff_getElem?.2 ⟨2, rfl⟩)
    (MethodSlot.stub 0) (List.mem_singleton_self _)
  have htwo : 1 = 2 := (congrArg List.length hz).symm
  exact absurd htwo (by decide)

end Order

end XPerl.Class
