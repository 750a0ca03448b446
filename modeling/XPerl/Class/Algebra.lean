import XPerl.Class.Compose

/-! The algebra of slot maps, and the closure of the pending roles under what they compose. -/

namespace XPerl.Class

open XPerl.Framework XPerl.Framework.MergeJoin

/-- What method slots and field slots have in common. -/
structure SlotAlgebra (α N : Type) where
  name : α → N
  origins : α → OriginSet
  defines : α → Bool
  withOrigin : OriginSet → α → α
  compose : α → α → α
  name_withOrigin : ∀ bit x, name (withOrigin bit x) = name x
  origins_withOrigin : ∀ bit x, origins (withOrigin bit x) = if defines x then bit else 0
  name_compose : ∀ a b, name (compose a b) = name a
  origins_compose : ∀ a b, origins (compose a b) = composeOrigins (origins a) (origins b)

/-- A method slot defines its name when it has a CV. -/
def methodAlgebra (P N : Type) : SlotAlgebra (MethodSlot P N) N where
  name := MethodSlot.name
  origins := MethodSlot.origins
  defines slot := slot.cv.isSome
  withOrigin := MethodSlot.withOrigin
  compose := MethodSlot.compose
  name_withOrigin _ _ := rfl
  origins_withOrigin bit slot := by
    cases h : slot.cv with
    | none => simp [MethodSlot.withOrigin, h, slot.required h]
    | some cv => simp [MethodSlot.withOrigin, h]
  name_compose _ _ := rfl
  origins_compose _ _ := rfl

def fieldAlgebra (N : Type) : SlotAlgebra (FieldSlot N) N where
  name := FieldSlot.padname
  origins := FieldSlot.origins
  defines _ := true
  withOrigin := FieldSlot.withOrigin
  compose := FieldSlot.compose
  name_withOrigin _ _ := rfl
  origins_withOrigin _ _ := rfl
  name_compose _ _ := rfl
  origins_compose _ _ := rfl

section Folds

variable {α : Type}

theorem foldl_merge_eq_none (join : α → α → α) (os : List (Option α)) (o : Option α) :
    os.foldl (Option.merge join) o = none ↔ o = none ∧ ∀ o' ∈ os, o' = none := by
  induction os generalizing o with
  | nil => simp
  | cons o' os ih =>
    rw [List.foldl_cons, ih, Option.merge_eq_none_iff, List.forall_mem_cons, and_assoc]

theorem any_foldl_merge {join : α → α → α} (f : α → Bool) (hf : ∀ a b, f (join a b) = (f a || f b))
    (os : List (Option α)) (o : Option α) :
    (os.foldl (Option.merge join) o).any f = (o.any f || os.any (Option.any f)) := by
  induction os generalizing o with
  | nil => simp
  | cons o' os ih => rw [List.foldl_cons, ih, Option.any_merge hf, List.any_cons, Bool.or_assoc]

end Folds

namespace SlotAlgebra

variable {α N : Type} [LinearOrder N] (A : SlotAlgebra α N)

def stamped (lists : List (List α)) : List (List α) :=
  lists.mapIdx fun i xs => xs.map (A.withOrigin (originBit i))

def composed (lists : List (List α)) : List α :=
  match A.stamped lists with
  | [] => []
  | first :: rest => mergeAll A.name A.compose first rest

def definesAt (p : List N) (xs : List α) : Bool := (at? A.name [] xs p).any A.defines

def occursAt (p : List N) (xs : List α) : Bool := (at? A.name [] xs p).isSome

variable {A}

theorem getLsbD_originBit (i j : Nat) (hj : j < 32) :
    (originBit i).getLsbD j = decide (i = j) := by
  rw [originBit, BitVec.getLsbD_twoPow]
  by_cases h : i = j
  · simp [h, hj]
  · simp [h]

theorem paths_map (f : α → α) (hf : ∀ x, A.name (f x) = A.name x) (stack : List N) (xs : List α) :
    paths A.name stack (xs.map f) = (paths A.name stack xs).map fun entry => (entry.1, f entry.2) := by
  induction xs generalizing stack with
  | nil => rfl
  | cons x xs ih => rw [List.map_cons, paths, paths, hf, ih, List.map_cons]

theorem at?_map (f : α → α) (hf : ∀ x, A.name (f x) = A.name x) (xs : List α) (p : List N) :
    at? A.name [] (xs.map f) p = (at? A.name [] xs p).map f := by
  rw [at?, at?, paths_map f hf, List.find?_map, Option.map_map, Option.map_map]
  rfl

theorem at?_composed (lists : List (List α)) (p : List N) :
    at? A.name [] (A.composed lists) p =
      (lists.mapIdx fun i xs => (at? A.name [] xs p).map (A.withOrigin (originBit i))).foldl
        (Option.merge A.compose) none := by
  have hstamp : (A.stamped lists).map (at? A.name [] · p) =
      lists.mapIdx fun i xs => (at? A.name [] xs p).map (A.withOrigin (originBit i)) := by
    apply List.ext_getElem?
    intro i
    rw [stamped, List.getElem?_map, List.getElem?_mapIdx, List.getElem?_mapIdx, Option.map_map]
    apply Option.map_congr
    intro xs _
    exact at?_map _ (A.name_withOrigin _) xs p
  rw [← hstamp, composed]
  cases A.stamped lists with
  | nil => rfl
  | cons first rest =>
    simp only [at?_mergeAll (fun x y _ => A.name_compose x y), List.map_cons, List.foldl_cons,
      Option.merge_none_left]

variable {lists : List (List α)} {p : List N} {xs : List α} {x : α}

theorem composed_eq_none :
    at? A.name [] (A.composed lists) p = none ↔ ∀ xs ∈ lists, at? A.name [] xs p = none := by
  rw [at?_composed, foldl_merge_eq_none]
  constructor
  · intro h xs hxs
    obtain ⟨i, hi, rfl⟩ := List.getElem_of_mem hxs
    have hnone := h.2 _ (List.mem_mapIdx.2 ⟨i, hi, rfl⟩)
    exact Option.map_eq_none_iff.1 hnone
  · intro h
    refine ⟨rfl, ?_⟩
    intro o ho
    obtain ⟨i, hi, rfl⟩ := List.mem_mapIdx.1 ho
    rw [h _ (List.getElem_mem hi)]
    rfl

theorem getLsbD_origins {z : α}
    (h : at? A.name [] (A.composed lists) p = some z) {j : Nat} (hj : j < 32) :
    (A.origins z).getLsbD j = (lists[j]?).any (A.definesAt p) := by
  have hany := any_foldl_merge (fun x => (A.origins x).getLsbD j)
    (fun a b => by rw [A.origins_compose, composeOrigins, BitVec.getLsbD_or])
    (lists.mapIdx fun i xs => (at? A.name [] xs p).map (A.withOrigin (originBit i))) none
  rw [← at?_composed, h, Option.any_some, Option.any_none, Bool.false_or] at hany
  rw [hany, Bool.eq_iff_iff, List.any_eq_true]
  constructor
  · intro hex
    obtain ⟨o, ho, hbit⟩ := hex
    obtain ⟨i, hi, rfl⟩ := List.mem_mapIdx.1 ho
    cases hat : at? A.name [] lists[i] p with
    | none => simp [hat] at hbit
    | some x =>
      rw [hat, Option.map_some, Option.any_some, A.origins_withOrigin] at hbit
      by_cases hdef : A.defines x = true
      · rw [if_pos hdef, getLsbD_originBit i j hj, decide_eq_true_eq] at hbit
        rw [← hbit, List.getElem?_eq_getElem hi, Option.any_some, definesAt, hat, Option.any_some]
        exact hdef
      · rw [if_neg hdef] at hbit
        simp at hbit
  · intro hdef
    cases hget : lists[j]? with
    | none => simp [hget] at hdef
    | some xs =>
      rw [hget, Option.any_some, definesAt] at hdef
      obtain ⟨hlt, rfl⟩ := List.getElem?_eq_some_iff.1 hget
      refine ⟨_, List.mem_mapIdx.2 ⟨j, hlt, rfl⟩, ?_⟩
      cases hat : at? A.name [] lists[j] p with
      | none => simp [hat] at hdef
      | some x =>
        rw [hat, Option.any_some] at hdef
        rw [Option.map_some, Option.any_some, A.origins_withOrigin, if_pos hdef,
          getLsbD_originBit j j hj]
        exact decide_eq_true rfl

theorem mem_iff_at? : x ∈ xs ↔ ∃ p, at? A.name [] xs p = some x := by
  constructor
  · intro hx
    have hpaths : (paths A.name [] xs).map Prod.snd = xs := map_snd_paths [] xs
    rw [← hpaths] at hx
    obtain ⟨entry, hentry, rfl⟩ := List.mem_map.1 hx
    exact ⟨entry.1, at?_eq_some.2 hentry⟩
  · intro hx
    obtain ⟨p, hp⟩ := hx
    have hpaths : (paths A.name [] xs).map Prod.snd = xs := map_snd_paths [] xs
    rw [← hpaths]
    exact List.mem_map_of_mem (at?_eq_some.1 hp)

theorem name_eq_of_at? {ys : List α} {y : α}
    (hx : at? A.name [] xs p = some x) (hy : at? A.name [] ys p = some y) :
    A.name x = A.name y := by
  have hxp := head_of_mem_paths (at?_eq_some.1 hx)
  have hyp := head_of_mem_paths (at?_eq_some.1 hy)
  rw [hxp] at hyp
  exact Option.some.inj hyp

theorem exists_of_composed {z : α}
    (h : at? A.name [] (A.composed lists) p = some z) :
    ∃ xs ∈ lists, ∃ x, at? A.name [] xs p = some x := by
  apply by_contradiction
  intro hno
  have hnone : ∀ xs ∈ lists, at? A.name [] xs p = none := by
    intro xs hxs
    rw [Option.eq_none_iff_forall_ne_some]
    intro x hx
    exact hno ⟨xs, hxs, x, hx⟩
  rw [composed_eq_none.2 hnone] at h
  cases h

theorem composed_of_exists (hxs : xs ∈ lists) (hx : at? A.name [] xs p = some x) :
    ∃ z, at? A.name [] (A.composed lists) p = some z := by
  cases hz : at? A.name [] (A.composed lists) p with
  | none =>
    rw [composed_eq_none.1 hz xs hxs] at hx
    cases hx
  | some z => exact ⟨z, rfl⟩

/-- One slot for each name that a participant has, with the participants that define it as its
origins. -/
def IsUnion (A : SlotAlgebra α N) (lists : List (List α)) (zs : List α) : Prop :=
  (∀ z ∈ zs, ∃ xs ∈ lists, ∃ x ∈ xs, A.name x = A.name z) ∧
    ∀ xs ∈ lists, ∀ x ∈ xs, ∃ z, zs.filter (fun y => decide (A.name y = A.name x)) = [z] ∧
      ∀ i < originSetMaxBits, ((A.origins z).getLsbD i = true ↔
        ∃ ys, lists[i]? = some ys ∧ ∃ y ∈ ys, A.name y = A.name x ∧ A.defines y = true)

theorem isUnion_iff (lists : List (List α)) :
    IsUnion A lists (A.composed lists) ↔ Agree A.name lists := by
  constructor
  · intro h xs hxs ys hys p x q y hp hq heq
    obtain ⟨z, hfilter, -⟩ := h.2 xs hxs x (mem_iff_at?.2 ⟨p, hp⟩)
    obtain ⟨w, hw⟩ := composed_of_exists hxs hp
    obtain ⟨w', hw'⟩ := composed_of_exists hys hq
    exact path_unique hfilter hw hw' (name_eq_of_at? hw hp) ((name_eq_of_at? hw' hq).trans heq.symm)
  · intro h
    constructor
    · intro z hz
      obtain ⟨p, hp⟩ := (mem_iff_at? (A := A)).1 hz
      obtain ⟨xs, hxs, x, hx⟩ := exists_of_composed hp
      exact ⟨xs, hxs, x, mem_iff_at?.2 ⟨p, hx⟩, name_eq_of_at? hx hp⟩
    · intro xs hxs x hx
      obtain ⟨p, hp⟩ := (mem_iff_at? (A := A)).1 hx
      obtain ⟨z, hz⟩ := composed_of_exists hxs hp
      have hname := name_eq_of_at? hz hp
      refine ⟨z, ?_, ?_⟩
      · rw [← hname]
        apply filter_key_of_agree hz
        intro q y hq hy
        obtain ⟨ys, hys, y', hy'⟩ := exists_of_composed hq
        have hyx := (name_eq_of_at? hy' hq).trans (hy.trans hname)
        exact h ys hys xs hxs q y' p x hy' hp hyx
      · intro i hi
        rw [getLsbD_origins hz hi]
        constructor
        · intro hany
          cases hget : lists[i]? with
          | none => simp [hget] at hany
          | some ys =>
            rw [hget, Option.any_some, definesAt] at hany
            cases hat : at? A.name [] ys p with
            | none => simp [hat] at hany
            | some y =>
              rw [hat, Option.any_some] at hany
              exact ⟨ys, rfl, y, mem_iff_at?.2 ⟨p, hat⟩, name_eq_of_at? hat hp, hany⟩
        · intro hex
          obtain ⟨ys, hget, y, hy, hyx, hdef⟩ := hex
          obtain ⟨q, hq⟩ := (mem_iff_at? (A := A)).1 hy
          have hqp := h ys (List.mem_of_getElem? hget) xs hxs q y p x hq hp hyx
          rw [hget, Option.any_some, definesAt, ← hqp, hq, Option.any_some]
          exact hdef

theorem countP_range_getElem? {β : Type} (f : β → Bool) (xs : List β) (n : Nat)
    (h : xs.length ≤ n) : (List.range n).countP (fun j : Nat => (xs[j]?).any f) = xs.countP f := by
  induction xs generalizing n with
  | nil => simp
  | cons x xs ih =>
    cases n with
    | zero => simp at h
    | succ n =>
      rw [List.length_cons] at h
      rw [List.range_succ_eq_map, List.countP_cons, List.countP_map, List.countP_cons,
        ← ih n (by omega)]
      rfl

end SlotAlgebra

variable {P N : Type} [DecidableEq P]

variable {unique pending : List P} {x : P}

theorem mem_collectUniqueRole {role : P} :
    x ∈ collectUniqueRole unique role ↔ x ∈ unique ∨ x = role := by
  rw [collectUniqueRole]
  by_cases h : role ∈ unique
  · rw [if_pos h]
    constructor
    · exact Or.inl
    · intro hx
      rcases hx with hx | rfl
      · exact hx
      · exact h
  · rw [if_neg h, List.mem_append, List.mem_singleton]

theorem foldl_collectUniqueRole (pending : List P) (h : unique.Nodup) :
    (∀ x, x ∈ pending.foldl collectUniqueRole unique ↔ x ∈ unique ∨ x ∈ pending) ∧
      (pending.foldl collectUniqueRole unique).Nodup := by
  induction pending generalizing unique with
  | nil => exact ⟨fun x => by simp, h⟩
  | cons role pending ih =>
    have hnodup : (collectUniqueRole unique role).Nodup := by
      rw [collectUniqueRole]
      by_cases hmem : role ∈ unique
      · rwa [if_pos hmem]
      · rw [if_neg hmem, List.nodup_append]
        refine ⟨h, List.nodup_singleton role, ?_⟩
        intro x hx y hy hxy
        rw [List.mem_singleton.1 hy] at hxy
        exact hmem (hxy ▸ hx)
    obtain ⟨hmem, hresult⟩ := ih hnodup
    refine ⟨?_, hresult⟩
    intro x
    rw [List.foldl_cons, hmem x, mem_collectUniqueRole, List.mem_cons, or_assoc]

theorem mem_collectUniqueRoles :
    x ∈ collectUniqueRoles pending ↔ x ∈ pending := by
  rw [collectUniqueRoles, (foldl_collectUniqueRole pending List.nodup_nil).1 x]
  simp

theorem nodup_collectUniqueRoles (pending : List P) : (collectUniqueRoles pending).Nodup :=
  (foldl_collectUniqueRole pending List.nodup_nil).2

theorem collectUniqueRoles_perm {pending' : List P}
    (h : ∀ x, x ∈ pending ↔ x ∈ pending') :
    (collectUniqueRoles pending).Perm (collectUniqueRoles pending') := by
  rw [List.perm_ext_iff_of_nodup (nodup_collectUniqueRoles _) (nodup_collectUniqueRoles _)]
  intro x
  rw [mem_collectUniqueRoles, mem_collectUniqueRoles, h]

section Closure

variable (w : World P N)

/-- Whether `p` composes `q`, directly or through other roles. -/
def Composes (p q : P) : Prop := Relation.ReflTransGen (fun a b => b ∈ (w a).roles) p q

/-- The role graph has no cycles, and the ranks bound the depth of a descent. -/
def Acyclic (rank : P → Nat) : Prop := ∀ p, ∀ q ∈ (w p).roles, rank q < rank p

def ClosedBelow (rank : P → Nat) (bound : Nat) (seen : List P) : Prop :=
  ∀ x ∈ seen, rank x < bound → ∀ y ∈ (w x).roles, y ∈ seen

/-- What a descent from the pending roles has done. -/
structure Descended (rank : P → Nat) (bound : Nat) (pending : List P)
    (acc acc' : List P × List P) : Prop where
  seen : ∀ x ∈ acc.1, x ∈ acc'.1
  collected : ∀ x ∈ pending, x ∈ acc'.1
  closed : ClosedBelow w rank bound acc'.1
  reached : ∀ x ∈ acc'.1, x ∈ acc.1 ∨ ∃ r ∈ pending, Composes w r x
  roles : ∀ x, x ∈ acc'.2 ↔ x ∈ acc.2 ∨ x ∈ acc'.1 ∧ x ∉ acc.1

variable {w} {rank : P → Nat}

omit [DecidableEq P] in
theorem rank_le_of_composes (hacyclic : Acyclic w rank) {p q : P} (h : Composes w p q) :
    rank q ≤ rank p := by
  induction h with
  | refl => exact Nat.le_refl _
  | tail _ hedge ih => exact (hacyclic _ _ hedge).le.trans ih

variable {bound fuel : Nat}

theorem Descended.trans {before after : List P} {acc acc' acc'' : List P × List P}
    (h : Descended w rank bound before acc acc') (h' : Descended w rank bound after acc' acc'') :
    Descended w rank bound (before ++ after) acc acc'' where
  seen x hx := h'.seen x (h.seen x hx)
  collected := by
    intro x hx
    rcases List.mem_append.1 hx with hx | hx
    · exact h'.seen x (h.collected x hx)
    · exact h'.collected x hx
  closed := h'.closed
  reached := by
    intro x hx
    rcases h'.reached x hx with hx | ⟨r, hr, hrx⟩
    · rcases h.reached x hx with hx | ⟨r, hr, hrx⟩
      · exact Or.inl hx
      · exact Or.inr ⟨r, List.mem_append_left _ hr, hrx⟩
    · exact Or.inr ⟨r, List.mem_append_right _ hr, hrx⟩
  roles := by
    intro x
    rw [h'.roles x, h.roles x]
    constructor
    · intro hx
      rcases hx with (hx | ⟨hx, hnew⟩) | ⟨hx, hnew⟩
      · exact Or.inl hx
      · exact Or.inr ⟨h'.seen x hx, hnew⟩
      · exact Or.inr ⟨hx, fun hold => hnew (h.seen x hold)⟩
    · intro hx
      rcases hx with hx | ⟨hx, hnew⟩
      · exact Or.inl (Or.inl hx)
      · by_cases hmid : x ∈ acc'.1
        · exact Or.inl (Or.inr ⟨hmid, hnew⟩)
        · exact Or.inr ⟨hx, hmid⟩

theorem collectRoleClosure_spec (hacyclic : Acyclic w rank) (pending : List P)
    (acc : List P × List P) (hfuel : bound ≤ fuel) (hrank : ∀ r ∈ pending, rank r < bound)
    (hclosed : ClosedBelow w rank bound acc.1) :
    Descended w rank bound pending acc (collectRoleClosure w fuel pending acc) := by
  induction fuel generalizing bound pending acc with
  | zero =>
    cases pending with
    | nil =>
      exact ⟨fun _ h => h, fun _ h => absurd h List.not_mem_nil, hclosed, fun _ h => Or.inl h,
        fun x => by simp [collectRoleClosure]⟩
    | cons r pending =>
      have hr := hrank r List.mem_cons_self
      omega
  | succ fuel ih =>
    rw [collectRoleClosure]
    induction pending generalizing acc with
    | nil =>
      exact ⟨fun _ h => h, fun _ h => absurd h List.not_mem_nil, hclosed, fun _ h => Or.inl h,
        fun x => by simp⟩
    | cons r pending ihp =>
      have hr := hrank r List.mem_cons_self
      have hfirst : Descended w rank bound [r] acc
          (if r ∈ acc.1 then acc
          else
            let inner := collectRoleClosure w fuel (w r).roles (acc.1 ++ [r], acc.2)
            (inner.1, inner.2 ++ [r])) := by
        by_cases hseen : r ∈ acc.1
        · rw [if_pos hseen]
          refine ⟨fun _ h => h, ?_, hclosed, fun _ h => Or.inl h, fun x => by simp⟩
          intro x hx
          rw [List.mem_singleton.1 hx]
          exact hseen
        · rw [if_neg hseen]
          have hclosedr : ClosedBelow w rank (rank r) (acc.1 ++ [r]) := by
            intro x hx hxr y hy
            rcases List.mem_append.1 hx with hx | hx
            · exact List.mem_append_left _ (hclosed x hx (by omega) y hy)
            · rw [List.mem_singleton.1 hx] at hxr
              omega
          have hinner := ih (w r).roles (acc.1 ++ [r], acc.2) (by omega) (hacyclic r) hclosedr
          generalize collectRoleClosure w fuel (w r).roles (acc.1 ++ [r], acc.2) = inner at hinner
          have hrin : r ∈ inner.1 := hinner.seen r (by simp)
          refine ⟨fun x hx => hinner.seen x (by simp [hx]), ?_, ?_, ?_, ?_⟩
          · intro x hx
            rw [List.mem_singleton.1 hx]
            exact hrin
          · -- what is new below `r` is closed by the inner descent, what is above was so before
            intro x hx hxb y hy
            by_cases hxr : rank x < rank r
            · exact hinner.closed x hx hxr y hy
            · rcases hinner.reached x hx with hx | ⟨q, hq, hqx⟩
              · rcases List.mem_append.1 hx with hx | hx
                · exact hinner.seen y (by simp [hclosed x hx hxb y hy])
                · rw [List.mem_singleton.1 hx] at hy
                  exact hinner.collected y hy
              · have hle := rank_le_of_composes hacyclic hqx
                have hlt := hacyclic r q hq
                omega
          · intro x hx
            rcases hinner.reached x hx with hx | ⟨q, hq, hqx⟩
            · rcases List.mem_append.1 hx with hx | hx
              · exact Or.inl hx
              · rw [List.mem_singleton.1 hx]
                exact Or.inr ⟨r, List.mem_singleton_self r, Relation.ReflTransGen.refl⟩
            · exact Or.inr ⟨r, List.mem_singleton_self r, Relation.ReflTransGen.head hq hqx⟩
          · intro x
            simp only [List.mem_append, List.mem_singleton, hinner.roles x, not_or]
            constructor
            · intro hx
              rcases hx with (hx | ⟨hx, hnew⟩) | rfl
              · exact Or.inl hx
              · exact Or.inr ⟨hx, hnew.1⟩
              · exact Or.inr ⟨hrin, hseen⟩
            · intro hx
              rcases hx with hx | ⟨hx, hnew⟩
              · exact Or.inl (Or.inl hx)
              · by_cases hxr : x = r
                · exact Or.inr hxr
                · exact Or.inl (Or.inr ⟨hx, hnew, hxr⟩)
      have hrest := ihp _ (fun q hq => hrank q (List.mem_cons_of_mem _ hq)) hfirst.closed
      rw [List.foldl_cons]
      exact hfirst.trans hrest

theorem mem_closure (hacyclic : Acyclic w rank) {pending : List P}
    (hfuel : ∀ r ∈ pending, rank r < fuel) {x : P} :
    x ∈ (collectRoleClosure w fuel pending ([], [])).2 ↔ ∃ r ∈ pending, Composes w r x := by
  have h := collectRoleClosure_spec hacyclic pending ([], []) (Nat.le_refl fuel) hfuel
    (fun _ hx => absurd hx List.not_mem_nil)
  rw [h.roles x]
  constructor
  · intro hx
    rcases hx with hx | ⟨hx, -⟩
    · exact absurd hx List.not_mem_nil
    · rcases h.reached x hx with hx | hx
      · exact absurd hx List.not_mem_nil
      · exact hx
  · intro hx
    obtain ⟨r, hr, hrx⟩ := hx
    refine Or.inr ⟨?_, List.not_mem_nil⟩
    induction hrx with
    | refl => exact h.collected r hr
    | tail hry hedge ih =>
      have hle := rank_le_of_composes hacyclic hry
      exact h.closed _ ih (hle.trans_lt (hfuel r hr)) _ hedge

end Closure

end XPerl.Class
