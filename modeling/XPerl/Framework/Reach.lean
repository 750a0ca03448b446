import Mathlib.Data.List.Nodup
import Mathlib.Data.List.Perm.Subperm
import Mathlib.Order.Basic

/-! Reachability: a search with a stack and marks, and relations without cycles. -/

namespace XPerl.Framework.Reach

open Relation

section Cycles

variable {α : Type} {r r' : α → α → Prop} {a b x y : α}

/-- No way along the relation leads back to its start. -/
def Acyclic (r : α → α → Prop) : Prop := ∀ x, ¬ TransGen r x x

def Extended (r : α → α → Prop) (a b : α) (x y : α) : Prop := r x y ∨ (x = a ∧ y = b)

theorem Acyclic.mono (h : Acyclic r) (hsub : ∀ x y, r' x y → r x y) : Acyclic r' := by
  intro x hcycle
  exact h x (TransGen.mono hsub x x hcycle)

theorem acyclic_of_rank {β : Type} [Preorder β] (rank : α → β)
    (h : ∀ x y, r x y → rank x < rank y) : Acyclic r := by
  have hgrows : ∀ x y, TransGen r x y → rank x < rank y := by
    intro x y hway
    induction hway with
    | single hstep => exact h _ _ hstep
    | tail _ hstep ih => exact ih.trans (h _ _ hstep)
  intro x hcycle
  exact lt_irrefl _ (hgrows x x hcycle)

theorem transGen_extended (h : TransGen (Extended r a b) x y) :
    TransGen r x y ∨ (ReflTransGen r x a ∧ ReflTransGen r b y) := by
  induction h with
  | single hstep =>
    rcases hstep with hold | ⟨rfl, rfl⟩
    · exact Or.inl (TransGen.single hold)
    · exact Or.inr ⟨ReflTransGen.refl, ReflTransGen.refl⟩
  | tail _ hstep ih =>
    rcases ih with hway | ⟨hto, hfrom⟩
    · rcases hstep with hold | ⟨rfl, rfl⟩
      · exact Or.inl (hway.tail hold)
      · exact Or.inr ⟨hway.to_reflTransGen, ReflTransGen.refl⟩
    · rcases hstep with hold | ⟨rfl, rfl⟩
      · exact Or.inr ⟨hto, hfrom.tail hold⟩
      · exact Or.inr ⟨hto, ReflTransGen.refl⟩

theorem acyclic_extended_iff (h : Acyclic r) :
    Acyclic (Extended r a b) ↔ ¬ ReflTransGen r b a := by
  constructor
  · intro hext hback
    have hback' : ReflTransGen (Extended r a b) b a :=
      ReflTransGen.mono (fun _ _ => Or.inl) b a hback
    exact hext a (TransGen.head' (Or.inr ⟨rfl, rfl⟩) hback')
  · intro hno x hcycle
    rcases transGen_extended hcycle with hold | ⟨hto, hfrom⟩
    · exact h x hold
    · exact hno (hfrom.trans hto)

end Cycles

section Search

variable {α : Type} [DecidableEq α]

/-- A look at `x`: what is not marked yet is marked and goes on the stack. -/
def visit (s : List α × List α) (x : α) : List α × List α :=
  if x ∈ s.2 then s else (x :: s.1, x :: s.2)

/-- Whether the search meets `wanted`, in at most so many rounds. -/
def search (next : α → List α) (wanted : α) : Nat → List α → List α → Bool
  | 0, _, _ => false
  | _ + 1, [], _ => false
  | rounds + 1, x :: stack, seen =>
    if x = wanted then true
    else
      let s := (next x).foldl visit (stack, seen)
      search next wanted rounds s.1 s.2

/-- Marks are given once, inside a finite space, to what the start reaches; what is marked waits on
the stack or has its successors marked. -/
structure Searching (next : α → List α) (start : α) (space : List α) (done : α → Prop)
    (s : List α × List α) : Prop where
  nodup : s.2.Nodup
  stack : s.1.Sublist s.2
  inside : s.2 ⊆ space
  reached : ∀ x ∈ s.2, ReflTransGen (fun a b => b ∈ next a) start x
  start : start ∈ s.2
  settled : ∀ x ∈ s.2, x ∈ s.1 ∨ done x

variable {next : α → List α} {start wanted x : α} {space : List α} {done done' : α → Prop}
  {s : List α × List α}

theorem visit_spec (h : Searching next start space done s) (hx : x ∈ space)
    (hway : ReflTransGen (fun a b => b ∈ next a) start x) :
    Searching next start space done (visit s x) ∧ s.2 ⊆ (visit s x).2 ∧ x ∈ (visit s x).2 ∧
      (visit s x).1.length + s.2.length = s.1.length + (visit s x).2.length := by
  rw [visit]
  by_cases hmem : x ∈ s.2
  · rw [if_pos hmem]
    exact ⟨h, List.Subset.refl _, hmem, rfl⟩
  · rw [if_neg hmem]
    refine ⟨⟨List.nodup_cons.2 ⟨hmem, h.nodup⟩, h.stack.cons_cons x, ?_, ?_, ?_, ?_⟩, ?_, ?_, ?_⟩
    · intro y hy
      rcases List.mem_cons.1 hy with rfl | hy
      · exact hx
      · exact h.inside hy
    · intro y hy
      rcases List.mem_cons.1 hy with rfl | hy
      · exact hway
      · exact h.reached y hy
    · exact List.mem_cons_of_mem x h.start
    · intro y hy
      rcases List.mem_cons.1 hy with rfl | hy
      · exact Or.inl List.mem_cons_self
      · exact (h.settled y hy).imp_left (List.mem_cons_of_mem x)
    · exact List.subset_cons_self x s.2
    · exact List.mem_cons_self
    · simp only [List.length_cons]
      omega

theorem visitAll_spec (xs : List α) (h : Searching next start space done s)
    (hxs : ∀ x ∈ xs, x ∈ space ∧ ReflTransGen (fun a b => b ∈ next a) start x) :
    Searching next start space done (xs.foldl visit s) ∧ s.2 ⊆ (xs.foldl visit s).2 ∧
      xs ⊆ (xs.foldl visit s).2 ∧
      (xs.foldl visit s).1.length + s.2.length = s.1.length + (xs.foldl visit s).2.length := by
  induction xs generalizing s with
  | nil => exact ⟨h, List.Subset.refl _, List.nil_subset _, rfl⟩
  | cons x xs ih =>
    obtain ⟨hx, hway⟩ := hxs x List.mem_cons_self
    obtain ⟨hvisit, hsub, hmem, hlen⟩ := visit_spec h hx hway
    obtain ⟨hall, hsub', hmems, hlen'⟩ :=
      ih hvisit (fun y hy => hxs y (List.mem_cons_of_mem x hy))
    rw [List.foldl_cons]
    refine ⟨hall, List.Subset.trans hsub hsub', ?_, by omega⟩
    intro y hy
    rcases List.mem_cons.1 hy with rfl | hy
    · exact hsub' hmem
    · exact hmems hy

def Through (next : α → List α) (wanted : α) (seen : List α) (x : α) : Prop :=
  x ≠ wanted ∧ next x ⊆ seen

omit [DecidableEq α] in
theorem Searching.mono (h : Searching next start space done s)
    (hdone : ∀ x ∈ s.2, done x → done' x) : Searching next start space done' s :=
  ⟨h.nodup, h.stack, h.inside, h.reached, h.start,
    fun x hx => (h.settled x hx).imp_right (hdone x hx)⟩

variable {stack seen : List α}

theorem round_spec (hclosed : ∀ x ∈ space, next x ⊆ space)
    (h : Searching next start space (Through next wanted seen) (x :: stack, seen))
    (hne : x ≠ wanted) :
    let s := (next x).foldl visit (stack, seen)
    Searching next start space (Through next wanted s.2) s ∧
      s.1.length + seen.length = stack.length + s.2.length := by
  have hx : x ∈ seen := h.stack.subset List.mem_cons_self
  have hpopped : Searching next start space
      (fun y => y = x ∨ Through next wanted seen y) (stack, seen) := by
    refine ⟨h.nodup, (List.sublist_cons_self x stack).trans h.stack, h.inside, h.reached,
      h.start, ?_⟩
    intro y hy
    rcases h.settled y hy with hstack | hthrough
    · rcases List.mem_cons.1 hstack with rfl | hstack
      · exact Or.inr (Or.inl rfl)
      · exact Or.inl hstack
    · exact Or.inr (Or.inr hthrough)
  have hnexts : ∀ y ∈ next x,
      y ∈ space ∧ ReflTransGen (fun a b => b ∈ next a) start y := fun y hy =>
    ⟨hclosed x (h.inside hx) hy, (h.reached x hx).tail hy⟩
  obtain ⟨hall, hsub, hmems, hlen⟩ := visitAll_spec (next x) hpopped hnexts
  refine ⟨hall.mono ?_, hlen⟩
  intro y _ hy
  rcases hy with rfl | ⟨hne', hnext⟩
  · exact ⟨hne, hmems⟩
  · exact ⟨hne', List.Subset.trans hnext hsub⟩

omit [DecidableEq α] in
theorem Searching.complete {y : α}
    (h : Searching next start space (Through next wanted seen) ([], seen))
    (hway : ReflTransGen (fun a b => b ∈ next a) start y) : y ∈ seen ∧ y ≠ wanted := by
  have hthrough : ∀ x ∈ seen, Through next wanted seen x := fun x hx =>
    (h.settled x hx).resolve_left List.not_mem_nil
  have hmarked : y ∈ seen := by
    induction hway with
    | refl => exact h.start
    | tail _ hstep ih => exact (hthrough _ ih).2 hstep
  exact ⟨hmarked, (hthrough y hmarked).1⟩

theorem search_of_searching (hclosed : ∀ x ∈ space, next x ⊆ space) (rounds : Nat)
    (h : Searching next start space (Through next wanted seen) (stack, seen))
    (hrounds : space.length + stack.length < rounds + seen.length) :
    search next wanted rounds stack seen = true ↔
      ReflTransGen (fun a b => b ∈ next a) start wanted := by
  induction rounds generalizing stack seen with
  | zero =>
    have hle : seen.length ≤ space.length := (h.nodup.subperm h.inside).length_le
    omega
  | succ rounds ih =>
    cases stack with
    | nil =>
      rw [search]
      constructor
      · intro hfalse
        cases hfalse
      · intro hway
        exact absurd rfl (h.complete hway).2
    | cons x stack =>
      rw [search]
      by_cases hfound : x = wanted
      · rw [if_pos hfound]
        have hx : x ∈ seen := h.stack.subset List.mem_cons_self
        exact ⟨fun _ => hfound ▸ h.reached x hx, fun _ => rfl⟩
      · rw [if_neg hfound]
        obtain ⟨hround, hlen⟩ := round_spec hclosed h hfound
        apply ih hround
        rw [List.length_cons] at hrounds
        omega

theorem search_iff (hclosed : ∀ x ∈ space, next x ⊆ space) (hstart : start ∈ space)
    {rounds : Nat} (hrounds : space.length < rounds) :
    search next wanted rounds [start] [start] = true ↔
      ReflTransGen (fun a b => b ∈ next a) start wanted := by
  apply search_of_searching hclosed
  · refine ⟨List.nodup_singleton start, List.Sublist.refl _, ?_, ?_, ?_, ?_⟩
    · intro x hx
      rwa [List.mem_singleton.1 hx]
    · intro x hx
      rw [List.mem_singleton.1 hx]
    · exact List.mem_singleton.2 rfl
    · intro x hx
      exact Or.inl hx
  · simp only [List.length_singleton]
    omega

end Search

end XPerl.Framework.Reach
