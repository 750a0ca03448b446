import XPerl.Framework.Reach
import XPerl.Mro.Linearisation
import Mathlib.Order.WellFoundedSet

/-! What `S_mro_get_linear_isa_dfs` returns: the depth-first preorder without later repeats. -/

namespace XPerl.Mro

open XPerl.Framework Relation

variable {Name : Type} {isaOf : Name → Option (List Name)}

/-- The depth-first preorder: the class, then the preorders of its parents from left to right. -/
inductive Preorder (isaOf : Name → Option (List Name)) : Name → List Name → Prop where
  | mk {c : Name} {order : Name → List Name}
      (hparents : ∀ p ∈ parents isaOf c, Preorder isaOf p (order p)) :
      Preorder isaOf c (c :: (parents isaOf c).flatMap order)

variable {c : Name} {l front : List Name} {b : Bool} {metas : Metas Name} {stored : Finset Name}

theorem Preorder.unique {l' : List Name} (h : Preorder isaOf c l)
    (h' : Preorder isaOf c l') : l = l' := by
  induction h generalizing l' with
  | @mk c order hparents ih =>
    cases h' with
    | @mk _ order' hparents' =>
      have hmap : (parents isaOf c).flatMap order = (parents isaOf c).flatMap order' := by
        apply List.flatMap_congr
        intro p hp
        exact ih p hp (hparents' p hp)
      rw [hmap]

theorem parent_wellFounded (hfinite : {c | (isaOf c).isSome = true}.Finite)
    (hacyclic : Reach.Acyclic (Parent isaOf)) : WellFounded (Parent isaOf) := by
  have hstrict : IsStrictOrder Name (TransGen (Parent isaOf)) :=
    { irrefl := hacyclic, trans := fun _ _ _ => TransGen.trans }
  have hon := hfinite.wellFoundedOn (r := TransGen (Parent isaOf))
  have hleaf : ∀ c, (isaOf c).isSome ≠ true → Acc (Parent isaOf) c := by
    intro c hc
    constructor
    intro p hp
    have hnone : isaOf c = none := by simpa using hc
    simp [Parent, parents, hnone] at hp
  constructor
  intro c
  by_cases hc : (isaOf c).isSome = true
  · apply hon.induction hc
    intro c _ ih
    constructor
    intro p hp
    by_cases hp' : (isaOf p).isSome = true
    · exact ih p hp' (TransGen.single hp)
    · exact hleaf p hp'
  · exact hleaf c hc

theorem exists_preorder (hwf : WellFounded (Parent isaOf)) (c : Name) :
    ∃ l, Preorder isaOf c l := by
  induction c using hwf.induction with
  | _ c ih =>
    have hex (p : Name) : ∃ l, p ∈ parents isaOf c → Preorder isaOf p l := by
      by_cases hp : p ∈ parents isaOf c
      · obtain ⟨l, hl⟩ := ih p hp
        exact ⟨l, fun _ => hl⟩
      · exact ⟨[], fun hp' => absurd hp' hp⟩
    obtain ⟨order, horder⟩ := Classical.axiomOfChoice hex
    exact ⟨_, Preorder.mk horder⟩

theorem Preorder.self_mem (h : Preorder isaOf c l) : c ∈ l := by
  cases h
  exact List.mem_cons_self

variable {x u : Name} {items retval : List Name} {e : Failure Name}

theorem Preorder.ancestor (h : Preorder isaOf c l) (hx : x ∈ l) :
    ReflTransGen (Parent isaOf) x c := by
  induction h with
  | @mk c order hparents ih =>
    rcases List.mem_cons.1 hx with rfl | hx
    · exact ReflTransGen.refl
    · obtain ⟨p, hp, hxp⟩ := List.mem_flatMap.1 hx
      exact (ih p hp hxp).tail hp

/-- Reached from the class by following first parents only. -/
inductive FirstLine (isaOf : Name → Option (List Name)) (u : Name) : Name → Prop where
  | here : FirstLine isaOf u u
  | up {c p : Name} {rest : List Name} (hfirst : parents isaOf c = p :: rest)
      (h : FirstLine isaOf u p) : FirstLine isaOf u c

theorem FirstLine.mem (h : FirstLine isaOf u c)
    (hl : Preorder isaOf c l) : u ∈ l := by
  induction h generalizing l with
  | here =>
    cases hl
    exact List.mem_cons_self
  | @up c p rest hfirst h ih =>
    cases hl with
    | @mk _ order hparents =>
      have hp : p ∈ parents isaOf c := by
        rw [hfirst]
        exact List.mem_cons_self
      apply List.mem_cons_of_mem
      exact List.mem_flatMap.2 ⟨p, hp, ih (hparents p hp)⟩

variable [DecidableEq Name] {universal : Name} {order : Name → List Name}

/-- Without later repeats, and without `UNIVERSAL` unless asked for. -/
def distinct (universal : Name) (b : Bool) (l : List Name) : List Name :=
  l.eraseDups.filter fun x => b || x ≠ universal

/-- What the code lists: `UNIVERSAL` stays only where following first parents finds it. -/
def Listed (isaOf : Name → Option (List Name)) (universal : Name) (c : Name)
    (l : List Name) : Prop :=
  ∃ order b, Preorder isaOf c order ∧ (b = true ↔ FirstLine isaOf universal c) ∧
    l = distinct universal b order

def IsaOf (universal : Name) (l : List Name) (isa : Finset Name) : Prop :=
  ∀ x, x ∈ isa ↔ x ∈ l ∨ x = universal

def MetasOk (isaOf : Name → Option (List Name)) (universal : Name) (metas : Metas Name) : Prop :=
  ∀ c l, metas.linear c = some l →
    Listed isaOf universal c l ∧ ∃ isa, metas.isa c = some isa ∧ IsaOf universal l isa

def DfsSound (isaOf : Name → Option (List Name)) (universal : Name) (levels : Nat) (c : Name)
    (metas : Metas Name) : Result Name (List Name) → Prop
  | .ok l => Listed isaOf universal c l ∧ metas.linear c = some l
  | .error (.thrown (.depthExceeded _)) => ¬ Shallow isaOf levels c
  | .error _ => False

theorem mem_distinct :
    x ∈ distinct universal b l ↔ x ∈ l ∧ (b = true ∨ x ≠ universal) := by
  rw [distinct, List.mem_filter, List.mem_eraseDups]
  simp

theorem nodup_distinct (universal : Name) (b : Bool) (l : List Name) :
    (distinct universal b l).Nodup :=
  (Distinct.nodup_eraseDups l).filter _

theorem distinct_append (b' : Bool) (l' : List Name)
    (h : b = true → universal ∈ l) :
    distinct universal b (l ++ l') = distinct universal b l ++
      (distinct universal b' l').filter fun x => ¬(x ∈ distinct universal b l ∨ x = universal) := by
  have hsplit : distinct universal b (l ++ l') = distinct universal b l ++
      (l'.eraseDups.filter (· ∉ l)).filter fun x => b || x ≠ universal := by
    rw [distinct, Distinct.eraseDups_append, List.filter_append]
    rfl
  have hlater : distinct universal b' l' = l'.eraseDups.filter fun x => b' || x ≠ universal := rfl
  rw [hsplit, hlater, List.filter_filter, List.filter_filter]
  congr 1
  apply List.filter_congr
  intro x hx
  have hmem : x ∈ distinct universal b l ↔ x ∈ l ∧ (b = true ∨ x ≠ universal) := mem_distinct
  by_cases hu : x = universal
  · subst hu
    cases b with
    | false => simp
    | true => simp [h rfl]
  · simp [hmem, hu]

omit [DecidableEq Name] in
theorem FirstLine.cases_on_first (h : FirstLine isaOf u c) :
    c = u ∨ ∃ p rest, parents isaOf c = p :: rest ∧ FirstLine isaOf u p := by
  cases h with
  | here => exact Or.inl rfl
  | up hfirst h => exact Or.inr ⟨_, _, hfirst, h⟩

theorem listed_leaf (h : parents isaOf c = []) : Listed isaOf universal c [c] := by
  have hpre : Preorder isaOf c (c :: (parents isaOf c).flatMap fun _ => []) := by
    constructor
    intro p hp
    rw [h] at hp
    cases hp
  rw [h] at hpre
  refine ⟨[c], decide (c = universal), hpre, ?_, ?_⟩
  · rw [decide_eq_true_eq]
    constructor
    · intro hc
      rw [hc]
      exact FirstLine.here
    · intro hline
      rcases hline.cases_on_first with hc | ⟨p, rest, hfirst, -⟩
      · exact hc
      · rw [h] at hfirst
        cases hfirst
  · by_cases hc : c = universal <;> simp [distinct, List.eraseDups_cons, hc]

theorem listed_cons {p : Name} {rest : List Name}
    (horder : ∀ c, Preorder isaOf c (order c)) (hself : ¬ TransGen (Parent isaOf) c c)
    (hfirst : parents isaOf c = p :: rest) (hb : b = true ↔ FirstLine isaOf universal p) :
    Listed isaOf universal c (c :: distinct universal b ((p :: rest).flatMap order)) := by
  have hpre : Preorder isaOf c (c :: (parents isaOf c).flatMap order) :=
    Preorder.mk fun p _ => horder p
  have hnew : c ∉ (parents isaOf c).flatMap order := by
    intro hmem
    obtain ⟨q, hq, hc⟩ := List.mem_flatMap.1 hmem
    exact hself (TransGen.tail' ((horder q).ancestor hc) hq)
  rw [hfirst] at hpre hnew
  have hcons : (c :: (p :: rest).flatMap order).eraseDups =
      c :: ((p :: rest).flatMap order).eraseDups := Distinct.eraseDups_cons_of_not_mem hnew
  by_cases hc : c = universal
  · refine ⟨_, true, hpre, iff_of_true rfl (hc ▸ FirstLine.here), ?_⟩
    have hsame : distinct universal b ((p :: rest).flatMap order) =
        ((p :: rest).flatMap order).eraseDups := by
      rw [distinct, List.filter_eq_self]
      intro x hx
      have hne : x ≠ universal := by
        intro hxu
        rw [List.mem_eraseDups, hxu, ← hc] at hx
        exact hnew hx
      simp [hne]
    rw [hsame, distinct, hcons]
    simp
  · refine ⟨_, b, hpre, ?_, ?_⟩
    · rw [hb]
      constructor
      · exact FirstLine.up hfirst
      · intro hline
        rcases hline.cases_on_first with hc' | ⟨q, rest', hfirst', hq⟩
        · exact absurd hc' hc
        · rw [hfirst] at hfirst'
          cases hfirst'
          exact hq
    · rw [distinct, distinct, hcons, List.filter_cons_of_pos]
      simp [hc]

/-- What the loop over `@ISA` has gathered: the items behind `front`, and their table. -/
def Gathered (universal : Name) (front : List Name) (b : Bool) (order : List Name)
    (r : List Name × Option (Finset Name)) : Prop :=
  r.1 = front ++ distinct universal b order ∧
    ∃ stored, r.2 = some stored ∧ IsaOf universal (distinct universal b order) stored

def TooDeep (isaOf : Name → Option (List Name)) (levels : Nat) (items : List Name) :
    Failure Name → Prop
  | .thrown (.depthExceeded _) => ∃ p ∈ items, (isaOf p).isSome = true ∧ ¬ Shallow isaOf levels p
  | _ => False

omit [DecidableEq Name] in
theorem TooDeep.mono {levels : Nat} {items' : List Name}
    (h : TooDeep isaOf levels items e) (hsub : ∀ p ∈ items, p ∈ items') :
    TooDeep isaOf levels items' e := by
  match e, h with
  | .thrown (.depthExceeded _), ⟨p, hp, hdeep⟩ => exact ⟨p, hsub p hp, hdeep⟩

def DfsCalls (isaOf : Name → Option (List Name)) (universal : Name) (levels : Nat)
    (recurse : Name → Metas Name → Metas Name × Result Name (List Name)) : Prop :=
  ∀ c metas, MetasOk isaOf universal metas → MetasOk isaOf universal (recurse c metas).1 ∧
    DfsSound isaOf universal levels c (recurse c metas).1 (recurse c metas).2

variable {levels : Nat} {recurse : Name → Metas Name → Metas Name × Result Name (List Name)}

def SubSound (isaOf : Name → Option (List Name)) (universal : Name) (levels : Nat) (sv : Name)
    (metas : Metas Name) : Result Name (List Name) → Prop
  | .ok l => Listed isaOf universal sv l ∧
      IsaOf universal l (firstStored isaOf universal sv metas)
  | .error e => TooDeep isaOf levels [sv] e

theorem DfsSound.error
    (h : DfsSound isaOf universal levels c metas (.error e)) :
    ∃ d, e = .thrown (.depthExceeded d) ∧ ¬ Shallow isaOf levels c := by
  cases e with
  | thrown e =>
    cases e with
    | depthExceeded d => exact ⟨d, rfl, h⟩
    | anonymousStash => exact h.elim
    | hierarchyInconsistent _ _ _ => exact h.elim
  | nullPointer => exact h.elim
  | outOfFuel => exact h.elim

theorem subLinear_spec (hrec : DfsCalls isaOf universal levels recurse) (sv : Name)
    (hmetas : MetasOk isaOf universal metas) :
    MetasOk isaOf universal (subLinear isaOf recurse sv metas).1 ∧
      SubSound isaOf universal levels sv (subLinear isaOf recurse sv metas).1
        (subLinear isaOf recurse sv metas).2 := by
  cases hstash : isaOf sv with
  | none =>
    have hrun : subLinear isaOf recurse sv metas = (metas, .ok [sv]) := by
      simp only [subLinear, hstash]
    rw [hrun]
    refine ⟨hmetas, listed_leaf (by simp [parents, hstash]), ?_⟩
    intro x
    simp only [firstStored, hstash, Finset.mem_insert, Finset.mem_singleton, List.mem_singleton]
    exact Or.comm
  | some isa =>
    have hrun : subLinear isaOf recurse sv metas = recurse sv metas := by
      simp only [subLinear, hstash]
    rw [hrun]
    obtain ⟨hmetas', hsound⟩ := hrec sv metas hmetas
    refine ⟨hmetas', ?_⟩
    generalize (recurse sv metas).1 = metas' at hmetas' hsound ⊢
    cases hres : (recurse sv metas).2 with
    | ok l =>
      rw [hres] at hsound
      obtain ⟨hlisted, hkept⟩ := hsound
      obtain ⟨-, stored, hstored, hisa⟩ := hmetas' sv l hkept
      have hfirst : firstStored isaOf universal sv metas' = stored := by
        simp only [firstStored, hstash, hstored, Option.getD_some]
      exact ⟨hlisted, hfirst ▸ hisa⟩
    | error e =>
      rw [hres] at hsound
      obtain ⟨d, rfl, hdeep⟩ := hsound.error
      exact ⟨sv, List.mem_singleton_self sv, by rw [hstash]; rfl, hdeep⟩

theorem Gathered.add (b' : Bool) (l' : List Name)
    (hgathered : Gathered universal front b l (retval, some stored))
    (hb : b = true → universal ∈ l) {r : List Name × Finset Name}
    (hr : (distinct universal b' l').foldl Distinct.addNew (retval, stored) = r) :
    Gathered universal front b (l ++ l') (r.1, some r.2) := by
  obtain ⟨hlist, stored', hsome, hstored⟩ := hgathered
  cases hsome
  obtain ⟨hnew, htable⟩ := Distinct.foldl_addNew (nodup_distinct universal b' l')
    (retval, stored)
  rw [hr] at hnew htable
  have hsplit := distinct_append b' l' hb
  have hfilter : (distinct universal b' l').filter (· ∉ stored) =
      (distinct universal b' l').filter
        fun x => ¬(x ∈ distinct universal b l ∨ x = universal) := by
    apply List.filter_congr
    intro x _
    simp only [hstored x]
  refine ⟨?_, r.2, rfl, ?_⟩
  · rw [hsplit, ← hfilter, ← List.append_assoc]
    exact hnew.trans (congrArg (· ++ _) hlist)
  · intro x
    have hmem : x ∈ distinct universal b (l ++ l') ↔ x ∈ distinct universal b l ∨
        (x ∈ distinct universal b' l' ∧ ¬(x ∈ distinct universal b l ∨ x = universal)) := by
      rw [hsplit, List.mem_append, List.mem_filter, decide_eq_true_eq]
    rw [htable, hstored x, hmem]
    tauto

def ItemsSound (isaOf : Name → Option (List Name)) (universal : Name) (levels : Nat)
    (front : List Name) (b : Bool) (order items : List Name) :
    Result Name (List Name × Option (Finset Name)) → Prop
  | .ok r => Gathered universal front b order r
  | .error e => TooDeep isaOf levels items e

theorem ItemsSound.cons {order : List Name} {sv : Name}
    {r : Result Name (List Name × Option (Finset Name))}
    (h : ItemsSound isaOf universal levels front b order items r) :
    ItemsSound isaOf universal levels front b order (sv :: items) r := by
  cases r with
  | ok r => exact h
  | error e => exact TooDeep.mono h fun _ => List.mem_cons_of_mem _

theorem dfsItems_later (horder : ∀ c, Preorder isaOf c (order c))
    (hrec : DfsCalls isaOf universal levels recurse)
    (items done : List Name)
    (hb : b = true → universal ∈ done.flatMap order)
    (hgathered : Gathered universal front b (done.flatMap order) (retval, some stored))
    (hmetas : MetasOk isaOf universal metas) :
    MetasOk isaOf universal
        (dfsItems isaOf universal recurse items retval (some stored) metas).1 ∧
      ItemsSound isaOf universal levels front b ((done ++ items).flatMap order) items
        (dfsItems isaOf universal recurse items retval (some stored) metas).2 := by
  induction items generalizing done retval stored metas with
  | nil =>
    rw [List.append_nil]
    exact ⟨hmetas, hgathered⟩
  | cons sv items ih =>
    rw [dfsItems]
    obtain ⟨hmetas', hsub⟩ := subLinear_spec hrec sv hmetas
    cases hrun : subLinear isaOf recurse sv metas with
    | mk metas' r =>
      rw [hrun] at hmetas' hsub
      cases r with
      | error e => exact ⟨hmetas', TooDeep.mono hsub (by simp)⟩
      | ok subrv =>
        obtain ⟨⟨order', b', hpre, -, rfl⟩, -⟩ := hsub
        obtain rfl := hpre.unique (horder sv)
        have hflat : (done ++ [sv]).flatMap order = done.flatMap order ++ order sv := by simp
        have hnext := hgathered.add b' (order sv) hb rfl
        rw [← hflat] at hnext
        have hb' : b = true → universal ∈ (done ++ [sv]).flatMap order := by
          intro htrue
          rw [hflat]
          exact List.mem_append_left _ (hb htrue)
        obtain ⟨hmetas'', hitems⟩ := ih (done ++ [sv]) hb' hnext hmetas'
        rw [List.append_assoc] at hitems
        exact ⟨hmetas'', hitems.cons⟩

theorem dfsItems_first (horder : ∀ c, Preorder isaOf c (order c))
    (hrec : DfsCalls isaOf universal levels recurse) (p : Name) (rest front : List Name)
    (hmetas : MetasOk isaOf universal metas) :
    MetasOk isaOf universal (dfsItems isaOf universal recurse (p :: rest) front none metas).1 ∧
      ∃ b : Bool, (b = true ↔ FirstLine isaOf universal p) ∧
        ItemsSound isaOf universal levels front b ((p :: rest).flatMap order) (p :: rest)
          (dfsItems isaOf universal recurse (p :: rest) front none metas).2 := by
  rw [dfsItems]
  obtain ⟨hmetas', hsub⟩ := subLinear_spec hrec p hmetas
  cases hrun : subLinear isaOf recurse p metas with
  | mk metas' r =>
    rw [hrun] at hmetas' hsub
    cases r with
    | error e =>
      refine ⟨hmetas', ?_⟩
      classical
      exact ⟨decide (FirstLine isaOf universal p), decide_eq_true_iff, TooDeep.mono hsub (by simp)⟩
    | ok subrv =>
      obtain ⟨⟨order', b, hpre, hb, rfl⟩, hisa⟩ := hsub
      obtain rfl := hpre.unique (horder p)
      have hflat : [p].flatMap order = order p := by simp
      have hgathered : Gathered universal front b ([p].flatMap order)
          (front ++ distinct universal b (order p), some (firstStored isaOf universal p metas')) := by
        rw [hflat]
        exact ⟨rfl, _, rfl, hisa⟩
      have huniversal : b = true → universal ∈ [p].flatMap order := by
        intro htrue
        rw [hflat]
        exact (hb.1 htrue).mem hpre
      obtain ⟨hmetas'', hitems⟩ := dfsItems_later horder hrec rest [p] huniversal hgathered hmetas'
      exact ⟨hmetas'', b, hb, hitems.cons⟩

theorem keepLinear_spec
    (hmetas : MetasOk isaOf universal metas) (hlisted : Listed isaOf universal c l)
    (hstored : IsaOf universal l (insert c stored)) :
    MetasOk isaOf universal (keepLinear c l stored metas) ∧
      DfsSound isaOf universal levels c (keepLinear c l stored metas) (.ok l) := by
  refine ⟨?_, hlisted, by simp [keepLinear]⟩
  intro d l' hd
  by_cases hdc : d = c
  · subst hdc
    have heq : some l = some l' := by simpa [keepLinear] using hd
    cases heq
    exact ⟨hlisted, _, by simp [keepLinear], hstored⟩
  · have hold : metas.linear d = some l' := by simpa [keepLinear, hdc] using hd
    have hsame : (keepLinear c l stored metas).isa d = metas.isa d := by simp [keepLinear, hdc]
    rw [hsame]
    exact hmetas d l' hold

theorem getLinearIsaDfs_spec (universal : Name) (horder : ∀ c, Preorder isaOf c (order c))
    (hacyclic : Reach.Acyclic (Parent isaOf)) (levels : Nat) :
    DfsCalls isaOf universal levels (getLinearIsaDfs isaOf universal levels) := by
  induction levels with
  | zero => exact fun c metas hmetas => ⟨hmetas, fun h => h⟩
  | succ levels ih =>
    intro c metas hmetas
    rw [getLinearIsaDfs]
    cases hcached : metas.linear c with
    | some l => exact ⟨hmetas, (hmetas c l hcached).1, hcached⟩
    | none =>
      cases hisa : (isaOf c).getD [] with
      | nil =>
        apply keepLinear_spec hmetas (listed_leaf hisa)
        intro x
        simp
      | cons p rest =>
        obtain ⟨hmetas', b, hb, hitems⟩ := dfsItems_first horder ih p rest [c] hmetas
        simp only
        cases hrun : dfsItems isaOf universal (getLinearIsaDfs isaOf universal levels) (p :: rest)
            [c] none metas with
        | mk metas' r =>
          rw [hrun] at hmetas' hitems
          match r, hitems with
          | .error (.thrown (.depthExceeded d)), ⟨q, hq, hstash, hdeep⟩ =>
            refine ⟨hmetas', ?_⟩
            intro hshallow
            have hmem : q ∈ parents isaOf c := by
              rw [parents, hisa]
              exact hq
            exact hdeep (hshallow q hmem hstash)
          | .ok (retval, stored), ⟨hlist, table, hsome, htable⟩ =>
            simp only at hlist hsome
            subst hlist hsome
            apply keepLinear_spec hmetas' (listed_cons horder (hacyclic c) hisa hb)
            intro x
            change x ∈ insert c table ↔ _
            rw [Finset.mem_insert, htable x, List.mem_cons, or_assoc]

theorem afterCalls_ok (horder : ∀ c, Preorder isaOf c (order c))
    (hacyclic : Reach.Acyclic (Parent isaOf)) (calls : List (Option Name)) :
    MetasOk isaOf universal (afterCalls isaOf universal calls) := by
  have hstep (stash : Option Name) (metas : Metas Name) (hmetas : MetasOk isaOf universal metas) :
      MetasOk isaOf universal (linearIsaDfs isaOf universal stash metas).1 := by
    cases stash with
    | none => exact hmetas
    | some c => exact (getLinearIsaDfs_spec universal horder hacyclic 101 c metas hmetas).1
  have hrun (calls : List (Option Name)) (metas : Metas Name)
      (hmetas : MetasOk isaOf universal metas) : MetasOk isaOf universal
        (calls.foldl (fun metas stash => (linearIsaDfs isaOf universal stash metas).1) metas) := by
    induction calls generalizing metas with
    | nil => exact hmetas
    | cons stash calls ih => exact ih _ (hstep stash metas hmetas)
  apply hrun
  intro c l hc
  cases hc

/-- On every finite graph without cycles and after any calls: the call returns the depth-first
preorder without its later repeats, where `UNIVERSAL` is no ancestor or is found along first
parents, and keeps the isa hash of the list; or it throws, where a chain is too long. -/
theorem linearIsaDfs_preorder (isaOf : Name → Option (List Name)) (universal : Name)
    (hfinite : {c | (isaOf c).isSome = true}.Finite) (hacyclic : Reach.Acyclic (Parent isaOf))
    (calls : List (Option Name)) (c : Name) :
    ∃ order, Preorder isaOf c order ∧
      ((∃ l isa, (linearIsaDfs isaOf universal (some c) (afterCalls isaOf universal calls)).2 =
            .ok l ∧
          (linearIsaDfs isaOf universal (some c) (afterCalls isaOf universal calls)).1.isa c =
            some isa ∧
          ((universal ∈ order → FirstLine isaOf universal c) → l = order.eraseDups) ∧
          ∀ x, x ∈ isa ↔ x ∈ l ∨ x = c ∨ x = universal) ∨
        ((∃ d, (linearIsaDfs isaOf universal (some c) (afterCalls isaOf universal calls)).2 =
            .error (.thrown (.depthExceeded d))) ∧ ¬ Shallow isaOf 101 c)) := by
  have hwf := parent_wellFounded hfinite hacyclic
  obtain ⟨order, horder⟩ := Classical.axiomOfChoice (exists_preorder hwf)
  refine ⟨order c, horder c, ?_⟩
  obtain ⟨hmetas, hsound⟩ := getLinearIsaDfs_spec universal horder hacyclic 101 c _
    (afterCalls_ok horder hacyclic calls)
  change MetasOk isaOf universal
    (linearIsaDfs isaOf universal (some c) (afterCalls isaOf universal calls)).1 at hmetas
  change DfsSound isaOf universal 101 c
    (linearIsaDfs isaOf universal (some c) (afterCalls isaOf universal calls)).1
    (linearIsaDfs isaOf universal (some c) (afterCalls isaOf universal calls)).2 at hsound
  generalize linearIsaDfs isaOf universal (some c) (afterCalls isaOf universal calls) = run
    at hmetas hsound
  obtain ⟨metas, r⟩ := run
  cases r with
  | error e =>
    obtain ⟨d, rfl, hdeep⟩ := hsound.error
    exact Or.inr ⟨⟨d, rfl⟩, hdeep⟩
  | ok l =>
    obtain ⟨⟨order', b, hpre, hb, hl⟩, hkept⟩ := hsound
    obtain rfl := hpre.unique (horder c)
    obtain ⟨-, isa, hisa, htable⟩ := hmetas c l hkept
    refine Or.inl ⟨l, isa, rfl, hisa, ?_, ?_⟩
    · intro huniversal
      rw [hl, distinct, List.filter_eq_self]
      intro x hx
      by_cases hxu : x = universal
      · subst hxu
        simp [hb.2 (huniversal (List.mem_eraseDups.1 hx))]
      · simp [hxu]
    · intro x
      have hself : c ∈ l := by
        rw [hl, mem_distinct]
        refine ⟨hpre.self_mem, ?_⟩
        by_cases hc : c = universal
        · exact Or.inl (hb.2 (hc ▸ FirstLine.here))
        · exact Or.inr hc
      rw [htable x]
      constructor
      · exact Or.imp_right Or.inr
      · intro hx
        rcases hx with hx | rfl | hx
        · exact Or.inl hx
        · exact Or.inl hself
        · exact Or.inr hx

theorem preorder_of_diamond :
    ∃ order, Preorder diamond 3 order ∧
      (linearIsaDfs diamond 0 (some 3) (afterCalls diamond 0 [some 2])).2 = .ok [3, 1, 0, 2] ∧
      order.eraseDups = [3, 1, 0, 2] := by
  have hrun : (linearIsaDfs diamond 0 (some 3) (afterCalls diamond 0 [some 2])).2 =
      .ok [3, 1, 0, 2] := by decide
  have hacyclic : Reach.Acyclic (Parent diamond) := by
    apply Reach.acyclic_of_rank id
    intro p c hp
    match c, hp with
    | 1, hp => rw [List.mem_singleton.1 hp]; decide
    | 2, hp => rw [List.mem_singleton.1 hp]; decide
    | 3, hp =>
      have hp' : p ∈ [1, 2] := hp
      simp at hp'
      simp only [id]
      omega
  have hfinite : {c | (diamond c).isSome = true}.Finite := by
    apply (Set.finite_le_nat 3).subset
    intro c hc
    match c, hc with
    | 0, _ | 1, _ | 2, _ | 3, _ => simp
  obtain ⟨order, hpre, hcall⟩ := linearIsaDfs_preorder diamond 0 hfinite hacyclic [some 2] 3
  refine ⟨order, hpre, hrun, ?_⟩
  rcases hcall with ⟨l, isa, hl, -, horder, -⟩ | ⟨⟨d, hthrown⟩, -⟩
  · rw [hrun] at hl
    cases hl
    exact (horder fun _ => FirstLine.up rfl (FirstLine.up rfl FirstLine.here)).symm
  · rw [hrun] at hthrown
    cases hthrown

private theorem chain_throws_dfs (levels n : Nat) (h : n + levels = 101) :
    getLinearIsaDfs chain 200 levels n Metas.empty =
      (Metas.empty, .error (.thrown (.depthExceeded 101))) := by
  induction levels generalizing n with
  | zero =>
    have hn : n = 101 := by omega
    rw [hn]
    rfl
  | succ levels ih =>
    obtain ⟨hisa, isa, hstash⟩ := chain_step (n := n) (by omega)
    have hsub : subLinear chain (getLinearIsaDfs chain 200 levels) (n + 1) Metas.empty =
        (Metas.empty, .error (.thrown (.depthExceeded 101))) := by
      simp only [subLinear, hstash, ih (n + 1) (by omega)]
    have hcached : Metas.empty.linear n = none := rfl
    simp only [getLinearIsaDfs, hcached, hisa, dfsItems, hsub]

/-- On an acyclic chain of 102 packages the call throws although a preorder exists. -/
theorem preorder_missing_on_chain :
    {c | (chain c).isSome = true}.Finite ∧ Reach.Acyclic (Parent chain) ∧
      (∃ order, Preorder chain 0 order) ∧
      (linearIsaDfs chain 200 (some 0) Metas.empty).2 = .error (.thrown (.depthExceeded 101)) := by
  have hfinite : {c | (chain c).isSome = true}.Finite := by
    apply (Set.finite_le_nat 101).subset
    intro c hc
    by_cases hle : c ≤ 101
    · exact hle
    · have hnone : chain c = none := by
        rw [chain, if_neg (by omega), if_neg (by omega)]
      simp [hnone] at hc
  have hacyclic : Reach.Acyclic (Parent chain) :=
    Reach.acyclic_of_rank OrderDual.toDual fun _ _ hp => lt_of_chain_parent hp
  exact ⟨hfinite, hacyclic, exists_preorder (parent_wellFounded hfinite hacyclic) 0,
    congrArg Prod.snd (chain_throws_dfs 101 0 rfl)⟩

end XPerl.Mro
