import XPerl.Mro.C3

/-! What `S_mro_get_linear_isa_c3` returns: the C3 linearisation, which keeps every order. -/

namespace XPerl.Mro

open XPerl.Framework Relation

variable {Name : Type} [DecidableEq Name] {isaOf : Name → Option (List Name)}

/-- The local `@ISA`; a class without a stash has none. -/
def parents (isaOf : Name → Option (List Name)) (c : Name) : List Name := (isaOf c).getD []

def Parent (isaOf : Name → Option (List Name)) (p c : Name) : Prop := p ∈ parents isaOf c

/-- The C3 linearisation: the class, then the merge of the parents' ones and the local order. -/
inductive C3 (isaOf : Name → Option (List Name)) : Name → List Name → Prop where
  | mk {c : Name} {lin : Name → List Name} {m : List Name}
      (hlin : ∀ p ∈ parents isaOf c, C3 isaOf p (lin p))
      (hm : Merges ((parents isaOf c).map lin ++ [parents isaOf c]) m) : C3 isaOf c (c :: m)

/-- The order constraints: the class first, each ancestor once, the order of every parent's own
linearisation and of the local `@ISA`. -/
structure Keeps (isaOf : Name → Option (List Name)) (c : Name) (l : List Name) : Prop where
  first : l.head? = some c
  nodup : l.Nodup
  ancestors : ∀ x, x ∈ l ↔ ReflTransGen (Parent isaOf) x c
  inherited : ∀ p ∈ parents isaOf c, ∃ lin, C3 isaOf p lin ∧ lin.Sublist l
  direct : (parents isaOf c).Sublist l

variable {l : List Name} {lin : Name → List Name} {levels : Nat}

theorem C3.head {c : Name} (h : C3 isaOf c l) : l.head? = some c := by
  cases h
  rfl

theorem C3.unique {c : Name} {l' : List Name} (h : C3 isaOf c l) (h' : C3 isaOf c l') :
    l = l' := by
  induction h generalizing l' with
  | @mk c lin m hlin hm ih =>
    cases h' with
    | @mk _ lin' m' hlin' hm' =>
      have hmap : (parents isaOf c).map lin = (parents isaOf c).map lin' := by
        apply List.map_congr_left
        intro p hp
        exact ih p hp (hlin' p hp)
      rw [hmap] at hm
      rw [hm.unique hm']

theorem C3.acc {c : Name} (h : C3 isaOf c l) : Acc (Parent isaOf) c := by
  induction h with
  | mk hlin hm ih =>
    constructor
    intro p hp
    exact ih p hp

omit [DecidableEq Name] in
private theorem not_ancestor_of_acc {c : Name} (h : Acc (Parent isaOf) c) :
    ¬ TransGen (Parent isaOf) c c := by
  have hacc := h.transGen
  clear h
  intro hself
  induction hacc with
  | intro c _ ih => exact ih c hself hself

private theorem mem_merge {c : Name} {m : List Name}
    (hm : Merges ((parents isaOf c).map lin ++ [parents isaOf c]) m)
    (hlin : ∀ p ∈ parents isaOf c, ∀ x, x ∈ lin p ↔ ReflTransGen (Parent isaOf) x p) (x : Name) :
    x ∈ m ↔ TransGen (Parent isaOf) x c := by
  rw [hm.mem_iff, TransGen.tail'_iff]
  constructor
  · rintro ⟨s, hs, hmem⟩
    rcases List.mem_append.1 hs with hs | hs
    · obtain ⟨p, hp, rfl⟩ := List.mem_map.1 hs
      exact ⟨p, (hlin p hp x).1 hmem, hp⟩
    · rw [List.mem_singleton.1 hs] at hmem
      exact ⟨x, ReflTransGen.refl, hmem⟩
  · rintro ⟨p, hx, hp⟩
    refine ⟨lin p, ?_, (hlin p hp x).2 hx⟩
    apply List.mem_append_left
    exact List.mem_map_of_mem hp

theorem C3.mem_iff {c : Name} (h : C3 isaOf c l) (x : Name) :
    x ∈ l ↔ ReflTransGen (Parent isaOf) x c := by
  induction h generalizing x with
  | @mk c lin m hlin hm ih =>
    have htail := mem_merge hm (fun p hp x => ih p hp x) x
    rw [List.mem_cons, htail, reflTransGen_iff_eq_or_transGen]
    constructor
    · rintro (rfl | h)
      · exact Or.inl rfl
      · exact Or.inr h
    · rintro (rfl | h)
      · exact Or.inl rfl
      · exact Or.inr h

theorem C3.keeps {c : Name} (h : C3 isaOf c l) : Keeps isaOf c l := by
  have hacc := h.acc
  have hmem := h.mem_iff
  cases h with
  | @mk _ lin m hlin hm =>
    have htail := mem_merge hm (fun p hp => (hlin p hp).mem_iff)
    refine ⟨rfl, ?_, hmem, ?_, ?_⟩
    · apply List.nodup_cons.2
      refine ⟨?_, hm.nodup⟩
      intro hself
      exact not_ancestor_of_acc hacc ((htail c).1 hself)
    · intro p hp
      refine ⟨lin p, hlin p hp, ?_⟩
      apply (hm.sublist (lin p) _).cons
      exact List.mem_append_left _ (List.mem_map_of_mem hp)
    · apply (hm.sublist _ _).cons
      exact List.mem_append_right _ List.mem_cons_self

theorem Keeps.exists_c3 {c : Name} (h : Keeps isaOf c l) :
    ∃ l', C3 isaOf c l' := by
  have hex (p : Name) : ∃ lin, p ∈ parents isaOf c → C3 isaOf p lin ∧ lin.Sublist l := by
    by_cases hp : p ∈ parents isaOf c
    · obtain ⟨lin, hlin⟩ := h.inherited p hp
      exact ⟨lin, fun _ => hlin⟩
    · exact ⟨[], fun hp' => absurd hp' hp⟩
  obtain ⟨lin, hlin⟩ := Classical.axiomOfChoice hex
  have hsub : ∀ s ∈ (parents isaOf c).map lin ++ [parents isaOf c], s.Sublist l := by
    intro s hs
    rcases List.mem_append.1 hs with hs | hs
    · obtain ⟨p, hp, rfl⟩ := List.mem_map.1 hs
      exact (hlin p hp).2
    · rw [List.mem_singleton.1 hs]
      exact h.direct
  obtain ⟨m, hm⟩ := exists_merges h.nodup hsub
  exact ⟨c :: m, C3.mk (fun p hp => (hlin p hp).1) hm⟩

theorem c3_of_no_parents {c : Name} (h : parents isaOf c = []) : C3 isaOf c [c] := by
  have hm : Merges ((parents isaOf c).map (fun p => [p]) ++ [parents isaOf c]) [] := by
    rw [h]
    apply Merges.done
    intro s hs
    exact List.mem_singleton.1 hs
  exact C3.mk (fun p hp => by rw [h] at hp; cases hp) hm

theorem c3_of_single_parent {c p : Name} (h : parents isaOf c = [p])
    (hp : C3 isaOf p l) : C3 isaOf c (c :: l) := by
  have hm : Merges ((parents isaOf c).map (fun _ => l) ++ [parents isaOf c]) l := by
    rw [h]
    exact merges_singleton hp.keeps.nodup [p] (by rw [hp.head]; rfl)
  refine C3.mk ?_ hm
  intro q hq
  rw [h] at hq
  rw [List.mem_singleton.1 hq]
  exact hp

/-- No chain of more than `n` packages starts at the class. -/
def Shallow (isaOf : Name → Option (List Name)) : Nat → Name → Prop
  | 0, _ => False
  | n + 1, c => ∀ p ∈ parents isaOf c, (isaOf p).isSome = true → Shallow isaOf n p

/-- Every cached list is the linearisation of its class. -/
def CacheOk (isaOf : Name → Option (List Name)) (cache : Cache Name) : Prop :=
  ∀ c l, cache c = some l → C3 isaOf c l

def Excused (unordered tooDeep : Prop) : Failure Name → Prop
  | .thrown (.hierarchyInconsistent _ _ _) => unordered
  | .thrown (.depthExceeded _) => tooDeep
  | _ => False

/-- What a result of the linearisation says. -/
def Sound (isaOf : Name → Option (List Name)) (levels : Nat) (c : Name) :
    Result Name (List Name) → Prop
  | .ok l => C3 isaOf c l
  | .error e => Excused (¬ ∃ l, C3 isaOf c l) (¬ Shallow isaOf levels c) e

/-- What the sequences collected from `items` are. -/
def Collected (isaOf : Name → Option (List Name)) (levels : Nat) (items : List Name)
    (seqs : List (List Name)) : Result Name (List Name ⊕ List (List Name)) → Prop
  | .ok (.inl isaLin) => seqs = [] ∧ ∃ p, items = [p] ∧ C3 isaOf p isaLin
  | .ok (.inr seqs') => ∃ lin, seqs' = seqs ++ items.map lin ∧ ∀ p ∈ items, C3 isaOf p (lin p)
  | .error e => ∃ p ∈ items, Excused (¬ ∃ l, C3 isaOf p l)
      ((isaOf p).isSome = true ∧ ¬ Shallow isaOf levels p) e

private theorem Collected.cons {p : Name} {items : List Name}
    {seqs : List (List Name)} {r : Result Name (List Name ⊕ List (List Name))}
    (h : Collected isaOf levels items (seqs ++ [l]) r) (hp : C3 isaOf p l) :
    Collected isaOf levels (p :: items) seqs r := by
  match r, h with
  | .ok (.inl isaLin), h =>
    obtain ⟨hnil, -⟩ := h
    exact absurd hnil (by simp)
  | .ok (.inr seqs'), h =>
    obtain ⟨lin, heq, hlin⟩ := h
    have hnew : ∀ q ∈ items, (if q = p then l else lin q) = lin q := by
      intro q hq
      by_cases hqp : q = p
      · rw [if_pos hqp]
        rw [hqp] at hq ⊢
        exact hp.unique (hlin p hq)
      · rw [if_neg hqp]
    refine ⟨fun q => if q = p then l else lin q, ?_, ?_⟩
    · rw [heq, List.map_cons, if_pos rfl, List.map_congr_left hnew, List.append_assoc]
      rfl
    · intro q hq
      change C3 isaOf q (if q = p then l else lin q)
      by_cases hqp : q = p
      · rw [if_pos hqp, hqp]
        exact hp
      · rw [if_neg hqp]
        rcases List.mem_cons.1 hq with heq' | hq
        · exact absurd heq' hqp
        · exact hlin q hq
  | .error e, h =>
    obtain ⟨q, hq, hexc⟩ := h
    exact ⟨q, List.mem_cons_of_mem _ hq, hexc⟩

theorem collect_spec
    {recurse : Name → Cache Name → Cache Name × Result Name (List Name)}
    (hrec : ∀ c cache, CacheOk isaOf cache → CacheOk isaOf (recurse c cache).1 ∧
      Sound isaOf levels c (recurse c cache).2)
    (items : List Name) (seqs : List (List Name)) {cache : Cache Name}
    (hcache : CacheOk isaOf cache) :
    CacheOk isaOf (collect isaOf recurse items seqs cache).1 ∧
      Collected isaOf levels items seqs (collect isaOf recurse items seqs cache).2 := by
  induction items generalizing seqs cache with
  | nil => exact ⟨hcache, fun c => [c], by simp, by simp⟩
  | cons isaItem items ih =>
    rw [collect]
    cases hstash : isaOf isaItem with
    | none =>
      have hfake : C3 isaOf isaItem [isaItem] := c3_of_no_parents (by simp [parents, hstash])
      obtain ⟨hcache', hcoll⟩ := ih (seqs ++ [[isaItem]]) hcache
      exact ⟨hcache', hcoll.cons hfake⟩
    | some isa =>
      obtain ⟨hcache', hsound⟩ := hrec isaItem cache hcache
      cases hrun : recurse isaItem cache with
      | mk cache' r =>
        rw [hrun] at hcache' hsound
        cases r with
        | error e =>
          refine ⟨hcache', isaItem, List.mem_cons_self, ?_⟩
          rw [hstash]
          match e, hsound with
          | .thrown (.hierarchyInconsistent _ _ _), hsound => exact hsound
          | .thrown (.depthExceeded _), hsound => exact ⟨rfl, hsound⟩
        | ok isaLin =>
          by_cases hshort : items = [] ∧ seqs = []
          · simp only [hshort, and_self, if_true]
            exact ⟨hcache', rfl, isaItem, rfl, hsound⟩
          · simp only [hshort, if_false]
            obtain ⟨hcache'', hcoll⟩ := ih (seqs ++ [isaLin]) hcache'
            exact ⟨hcache'', hcoll.cons hsound⟩

private theorem setPrivateData_spec {c : Name} {cache : Cache Name}
    (hcache : CacheOk isaOf cache) {r : Result Name (List Name)} (hr : Sound isaOf levels c r) :
    CacheOk isaOf (setPrivateData c cache r).1 ∧ Sound isaOf levels c (setPrivateData c cache r).2 := by
  cases r with
  | error e => exact ⟨hcache, hr⟩
  | ok l =>
    refine ⟨?_, hr⟩
    intro d l' hd
    by_cases hdc : d = c
    · rw [hdc] at hd ⊢
      have heq : some l = some l' := by simpa [setPrivateData] using hd
      rw [← Option.some.inj heq]
      exact hr
    · apply hcache d l'
      simpa [setPrivateData, hdc] using hd

private theorem no_c3_of_parent {c p : Name} (hp : p ∈ parents isaOf c)
    (h : ¬ ∃ l, C3 isaOf p l) : ¬ ∃ l, C3 isaOf c l := by
  intro hc
  obtain ⟨l, hl⟩ := hc
  cases hl with
  | @mk _ lin m hlin hm => exact h ⟨lin p, hlin p hp⟩

private theorem no_c3_of_no_merge {c : Name}
    (hlin : ∀ p ∈ parents isaOf c, C3 isaOf p (lin p))
    (h : ∀ m, ¬ Merges ((parents isaOf c).map lin ++ [parents isaOf c]) m) :
    ¬ ∃ l, C3 isaOf c l := by
  intro hc
  obtain ⟨l, hl⟩ := hc
  cases hl with
  | @mk _ lin' m hlin' hm =>
    have hmap : (parents isaOf c).map lin' = (parents isaOf c).map lin := by
      apply List.map_congr_left
      intro p hp
      exact (hlin' p hp).unique (hlin p hp)
    rw [hmap] at hm
    exact h m hm

private theorem excused_of_parent {c p : Name} {e : Failure Name}
    (hp : p ∈ parents isaOf c)
    (h : Excused (¬ ∃ l, C3 isaOf p l) ((isaOf p).isSome = true ∧ ¬ Shallow isaOf levels p) e) :
    Excused (¬ ∃ l, C3 isaOf c l) (¬ Shallow isaOf (levels + 1) c) e := by
  match e, h with
  | .thrown (.hierarchyInconsistent _ _ _), h => exact no_c3_of_parent hp h
  | .thrown (.depthExceeded _), h =>
    intro hshallow
    exact h.2 (hshallow p hp h.1)

private theorem seqs_ne_nil {c : Name} (hne : parents isaOf c ≠ [])
    (hlin : ∀ p ∈ parents isaOf c, C3 isaOf p (lin p)) :
    ∀ s ∈ (parents isaOf c).map lin ++ [parents isaOf c], s ≠ [] := by
  intro s hs hnil
  rcases List.mem_append.1 hs with hs | hs
  · obtain ⟨p, hp, rfl⟩ := List.mem_map.1 hs
    have hhead := (hlin p hp).head
    rw [hnil] at hhead
    cases hhead
  · rw [List.mem_singleton.1 hs] at hnil
    exact hne hnil

private theorem fullMerge_sound {c : Name}
    (hne : parents isaOf c ≠ []) (hlin : ∀ p ∈ parents isaOf c, C3 isaOf p (lin p)) :
    Sound isaOf levels c (fullMerge c ((parents isaOf c).map lin ++ [parents isaOf c])) := by
  rcases fullMerge_spec c (seqs_ne_nil hne hlin) with ⟨m, hm, hrun⟩ | ⟨hno, merged, cand, hrun⟩
  · rw [hrun]
    exact C3.mk hlin hm
  · rw [hrun]
    exact no_c3_of_no_merge hlin hno

theorem getLinearIsaC3_spec (levels : Nat) (c : Name) (cache : Cache Name)
    (hcache : CacheOk isaOf cache) :
    CacheOk isaOf (getLinearIsaC3 isaOf levels c cache).1 ∧
      Sound isaOf levels c (getLinearIsaC3 isaOf levels c cache).2 := by
  induction levels generalizing c cache with
  | zero => exact ⟨hcache, fun h => h⟩
  | succ levels ih =>
    cases hc : cache c with
    | some l =>
      simp only [getLinearIsaC3, hc]
      exact ⟨hcache, hcache c l hc⟩
    | none =>
      cases hisa : (isaOf c).getD [] with
      | nil =>
        simp only [getLinearIsaC3, hc, hisa]
        exact setPrivateData_spec hcache (r := .ok [c]) (c3_of_no_parents hisa)
      | cons p isa =>
        have hparents : parents isaOf c = p :: isa := hisa
        simp only [getLinearIsaC3, hc, hisa]
        obtain ⟨hcache', hcoll⟩ := collect_spec ih (p :: isa) [] hcache
        cases hrun : collect isaOf (getLinearIsaC3 isaOf levels) (p :: isa) [] cache with
        | mk cache' r =>
          rw [hrun] at hcache' hcoll
          match r, hcoll with
          | .error e, hcoll =>
            obtain ⟨q, hq, hexc⟩ := hcoll
            exact ⟨hcache', excused_of_parent (hparents ▸ hq) hexc⟩
          | .ok (.inl isaLin), hcoll =>
            obtain ⟨-, q, hq, hlin⟩ := hcoll
            exact setPrivateData_spec hcache' (r := .ok (c :: isaLin))
              (c3_of_single_parent (hparents.trans hq) hlin)
          | .ok (.inr seqs), hcoll =>
            obtain ⟨lin, heq, hlin⟩ := hcoll
            apply setPrivateData_spec hcache'
            rw [heq, List.nil_append, ← hparents]
            rw [← hparents] at hlin
            exact fullMerge_sound (by rw [hparents]; exact List.cons_ne_nil _ _) hlin

theorem fullMerge_single {c p : Name} (hp : C3 isaOf p l) :
    fullMerge c ([l] ++ [[p]]) = .ok (c :: l) := by
  have hm : Merges [l, [p]] l := merges_singleton hp.keeps.nodup [p] (by rw [hp.head]; rfl)
  have hseqs : ∀ s ∈ [l, [p]], s ≠ [] := by
    intro s hs hnil
    have hhead := hp.head
    rcases List.mem_cons.1 hs with rfl | hs
    · rw [hnil] at hhead
      cases hhead
    · rw [List.mem_singleton.1 hs] at hnil
      cases hnil
  rcases fullMerge_spec c hseqs with ⟨m, hm', hrun⟩ | ⟨hno, -⟩
  · rw [← hm.unique hm'] at hrun
    exact hrun
  · exact absurd hm (hno l)

/-- For every class of an inheritance graph without chains of more than 101 packages, and from
every cache of right lists: the call returns the C3 linearisation, which keeps every order, or
throws the exception of an inconsistent hierarchy, the latter exactly when no list keeps every
order; in the merge loop no tail count is ever negative; and the shortcut of a single parent
gives the list of the full merge. -/
theorem linearIsaC3_correct (isaOf : Name → Option (List Name)) (cache : Cache Name)
    (hcache : CacheOk isaOf cache) (c : Name) (hdepth : Shallow isaOf 101 c) :
    ((∃ l, (linearIsaC3 isaOf (some c) cache).2 = .ok l ∧ C3 isaOf c l ∧ Keeps isaOf c l) ∨
      ∃ d merged cand, (linearIsaC3 isaOf (some c) cache).2 =
        .error (.thrown (.hierarchyInconsistent d merged cand))) ∧
    ((∃ d merged cand, (linearIsaC3 isaOf (some c) cache).2 =
        .error (.thrown (.hierarchyInconsistent d merged cand))) ↔ ¬ ∃ l, Keeps isaOf c l) ∧
    (∀ lin, (∀ p ∈ parents isaOf c, C3 isaOf p (lin p)) → parents isaOf c ≠ [] →
      ∀ st, Reached c ((parents isaOf c).map lin ++ [parents isaOf c]) st →
        ∀ k, ∃ visited r, visitAll (st.seqs.take k) st.round = .ok (visited, r) ∧
          ∀ x, 0 ≤ r.tails.count x) ∧
    ∀ p l, parents isaOf c = [p] → C3 isaOf p l → fullMerge c ([l] ++ [[p]]) = .ok (c :: l) := by
  have hnoKeeps : (¬ ∃ l, C3 isaOf c l) → ¬ ∃ l, Keeps isaOf c l := by
    intro hno hkeeps
    obtain ⟨l, hl⟩ := hkeeps
    exact hno hl.exists_c3
  have hsound := (getLinearIsaC3_spec 101 c cache hcache).2
  change Sound isaOf 101 c (linearIsaC3 isaOf (some c) cache).2 at hsound
  refine ⟨?_, ?_, ?_, fun p l _ hp => fullMerge_single hp⟩
  · cases hrun : (linearIsaC3 isaOf (some c) cache).2 with
    | ok l =>
      rw [hrun] at hsound
      have hc3 : C3 isaOf c l := hsound
      exact Or.inl ⟨l, rfl, hc3, hc3.keeps⟩
    | error e =>
      rw [hrun] at hsound
      match e, hsound with
      | .thrown (.hierarchyInconsistent d merged cand), _ => exact Or.inr ⟨d, merged, cand, rfl⟩
      | .thrown (.depthExceeded _), hdeep => exact absurd hdepth hdeep
  · constructor
    · intro hthrown
      obtain ⟨d, merged, cand, hrun⟩ := hthrown
      rw [hrun] at hsound
      exact hnoKeeps hsound
    · intro hno
      cases hrun : (linearIsaC3 isaOf (some c) cache).2 with
      | ok l =>
        rw [hrun] at hsound
        have hc3 : C3 isaOf c l := hsound
        exact absurd ⟨l, hc3.keeps⟩ hno
      | error e =>
        rw [hrun] at hsound
        match e, hsound with
        | .thrown (.hierarchyInconsistent d merged cand), _ => exact ⟨d, merged, cand, rfl⟩
        | .thrown (.depthExceeded _), hdeep => exact absurd hdepth hdeep
  · intro lin hlin hne st hst k
    exact hst.counts_nonneg (seqs_ne_nil hne hlin) k

omit [DecidableEq Name] in
theorem shallow_of_rank (rank : Name → Nat)
    (h : ∀ c, ∀ p ∈ parents isaOf c, rank p < rank c) (n : Nat) (c : Name) (hn : rank c < n) :
    Shallow isaOf n c := by
  induction n generalizing c with
  | zero => omega
  | succ n ih =>
    intro p hp _
    have hlt := h c p hp
    exact ih p (by omega)

/-- A diamond with the class 3 at the bottom. -/
def diamond : Nat → Option (List Nat)
  | 0 => some []
  | 1 => some [0]
  | 2 => some [0]
  | 3 => some [1, 2]
  | _ => none

theorem linearisation_of_diamond :
    (linearIsaC3 diamond (some 3) (fun _ => none)).2 = .ok [3, 1, 2, 0] ∧
      Keeps diamond 3 [3, 1, 2, 0] := by
  have hrun : (linearIsaC3 diamond (some 3) (fun _ => none)).2 = .ok [3, 1, 2, 0] := by decide
  have hrank : ∀ c, ∀ p ∈ parents diamond c, p < c := by
    intro c p hp
    match c, hp with
    | 1, hp => rw [List.mem_singleton.1 hp]; decide
    | 2, hp => rw [List.mem_singleton.1 hp]; decide
    | 3, hp =>
      have hp' : p ∈ [1, 2] := hp
      simp at hp'
      omega
  have hdepth := shallow_of_rank id hrank 101 3 (by decide)
  obtain ⟨hanswer, -⟩ := linearIsaC3_correct diamond (fun _ => none) (by intro c l h; cases h) 3 hdepth
  rcases hanswer with ⟨l, hl, -, hkeeps⟩ | ⟨d, merged, cand, hthrown⟩
  · rw [hrun] at hl
    cases hl
    exact ⟨hrun, hkeeps⟩
  · rw [hrun] at hthrown
    cases hthrown

/-- A chain of 102 packages. -/
def chain (n : Nat) : Option (List Nat) :=
  if n < 101 then some [n + 1] else if n = 101 then some [] else none

theorem lt_of_chain_parent {p c : Nat} (hp : Parent chain p c) : c < p := by
  by_cases hc : c < 101
  · have hmem : p ∈ [c + 1] := by simpa [Parent, parents, chain, hc] using hp
    rw [List.mem_singleton.1 hmem]
    omega
  · by_cases hlast : c = 101 <;> simp [Parent, parents, chain, hc, hlast] at hp

theorem chain_step {n : Nat} (h : n < 101) :
    (chain n).getD [] = [n + 1] ∧ ∃ isa, chain (n + 1) = some isa := by
  refine ⟨by rw [chain, if_pos h]; rfl, ?_⟩
  by_cases hnext : n + 1 < 101
  · exact ⟨[n + 1 + 1], by rw [chain, if_pos hnext]⟩
  · exact ⟨[], by rw [chain, if_neg hnext, if_pos (by omega)]⟩

private theorem chain_c3 (k : Nat) (hk : k ≤ 101) : ∃ l, C3 chain (101 - k) l := by
  induction k with
  | zero => exact ⟨[101], c3_of_no_parents rfl⟩
  | succ k ih =>
    obtain ⟨l, hl⟩ := ih (by omega)
    have hstep : 101 - (k + 1) + 1 = 101 - k := by omega
    refine ⟨(101 - (k + 1)) :: l, c3_of_single_parent (p := 101 - k) ?_ hl⟩
    have hlt : 101 - (k + 1) < 101 := by omega
    rw [parents, chain, if_pos hlt, hstep]
    rfl

private theorem chain_throws (levels n : Nat) (h : n + levels = 101) :
    getLinearIsaC3 chain levels n (fun _ => none) =
      (fun _ => none, .error (.thrown (.depthExceeded 101))) := by
  induction levels generalizing n with
  | zero =>
    have hn : n = 101 := by omega
    rw [hn]
    rfl
  | succ levels ih =>
    obtain ⟨hisa, isa, hstash⟩ := chain_step (n := n) (by omega)
    simp only [getLinearIsaC3, hisa, collect, hstash, ih (n + 1) (by omega)]

/-- On an acyclic chain of 102 packages the call throws although a list keeps every order. -/
theorem depth_exceeded_on_chain :
    (∀ p c, Parent chain p c → c < p) ∧ (∃ l, Keeps chain 0 l) ∧
      (linearIsaC3 chain (some 0) (fun _ => none)).2 = .error (.thrown (.depthExceeded 101)) := by
  refine ⟨fun p c hp => lt_of_chain_parent hp, ?_, congrArg Prod.snd (chain_throws 101 0 rfl)⟩
  obtain ⟨l, hl⟩ := chain_c3 101 (Nat.le_refl _)
  exact ⟨l, hl.keeps⟩

end XPerl.Mro
