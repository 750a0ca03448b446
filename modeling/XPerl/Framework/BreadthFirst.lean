import Mathlib.Data.List.Chain
import Mathlib.Data.List.Nodup
import Mathlib.Data.List.Perm.Subperm

/-! Walks, and the breadth-first search that finds shortest ones. -/

namespace XPerl.Framework.BreadthFirst

open Relation

section Walks

variable {α : Type} {r : α → α → Prop} {a b x y : α} {p : List α} {n : Nat}

/-- A walk of at least one step, as the list of what it passes. -/
structure Walk (r : α → α → Prop) (a b : α) (p : List α) : Prop where
  first : p.head? = some a
  last : p.getLast? = some b
  long : 2 ≤ p.length
  steps : p.IsChain r

/-- The right answer to a request for a shortest walk. -/
def ShortestWalk (r : α → α → Prop) (a b : α) : Option (List α) → Prop
  | none => ∀ p, ¬ Walk r a b p
  | some p => Walk r a b p ∧ ∀ q, Walk r a b q → p.length ≤ q.length

/-- What can be reached in so many steps. -/
inductive Steps (r : α → α → Prop) (a : α) : Nat → α → Prop
  | start : Steps r a 0 a
  | step {n : Nat} {x y : α} : Steps r a n x → r x y → Steps r a (n + 1) y

theorem steps_of_chain (p : List α) (hfirst : p.head? = some a) (hlast : p.getLast? = some b)
    (hsteps : p.IsChain r) : Steps r a (p.length - 1) b := by
  induction p using List.reverseRecOn generalizing b with
  | nil => cases hfirst
  | append_singleton p z ih =>
    have hz : z = b := by simpa using hlast
    subst hz
    cases hp : p.getLast? with
    | none =>
      have hnil : p = [] := List.getLast?_eq_none_iff.1 hp
      subst hnil
      have ha : z = a := by simpa using hfirst
      subst ha
      exact Steps.start
    | some y =>
      have hne : p ≠ [] := by
        intro hnil
        rw [hnil] at hp
        cases hp
      rw [List.head?_append_of_ne_nil p hne] at hfirst
      obtain ⟨hchain, -, hlink⟩ := List.isChain_append.1 hsteps
      have hpred := ih hfirst hp hchain
      have hlen : p.length - 1 + 1 = p.length := Nat.sub_add_cancel (List.length_pos_iff.2 hne)
      rw [List.length_append, List.length_singleton, Nat.add_sub_cancel, ← hlen]
      exact hpred.step (hlink y hp z rfl)

theorem Walk.last_step (h : Walk r a b p) : ∃ x, Steps r a (p.length - 2) x ∧ r x b := by
  have hsteps := steps_of_chain p h.first h.last h.steps
  have hlong := h.long
  obtain ⟨n, hn⟩ : ∃ n, p.length - 1 = n + 1 := ⟨p.length - 2, by omega⟩
  rw [hn] at hsteps
  cases hsteps with
  | step hpred hlast =>
    refine ⟨_, ?_, hlast⟩
    rw [show p.length - 2 = n by omega]
    exact hpred

theorem Steps.reaches (h : Steps r a n b) : ReflTransGen r a b := by
  induction h with
  | start => exact ReflTransGen.refl
  | step _ hstep ih => exact ih.tail hstep

theorem Walk.transGen (h : Walk r a b p) : TransGen r a b := by
  obtain ⟨x, hsteps, hlast⟩ := h.last_step
  exact TransGen.tail' hsteps.reaches hlast

theorem Walk.cons (h : Walk r x b p) (hstep : r a x) : Walk r a b (a :: p) := by
  obtain ⟨hfirst, hlast, hlong, hsteps⟩ := h
  cases p with
  | nil => cases hfirst
  | cons y p =>
    have hy : y = x := by simpa using hfirst
    subst hy
    refine ⟨rfl, ?_, by simp, List.isChain_cons_cons.2 ⟨hstep, hsteps⟩⟩
    rw [List.getLast?_cons_cons]
    exact hlast

theorem walk_pair (hstep : r a b) : Walk r a b [a, b] :=
  ⟨rfl, rfl, Nat.le_refl 2, List.isChain_pair.2 hstep⟩

theorem Walk.tail_cases (h : Walk r a b p) :
    (p = [a, b] ∧ r a b) ∨ ∃ x q, p = a :: q ∧ r a x ∧ Walk r x b q := by
  obtain ⟨hfirst, hlast, hlong, hsteps⟩ := h
  match p with
  | [] => cases hfirst
  | [_] => simp at hlong
  | [y, z] =>
    have hy : y = a := by simpa using hfirst
    have hz : z = b := by simpa using hlast
    subst hy hz
    exact Or.inl ⟨rfl, List.isChain_pair.1 hsteps⟩
  | y :: x :: z :: q =>
    have hy : y = a := by simpa using hfirst
    subst hy
    obtain ⟨hstep, hrest⟩ := List.isChain_cons_cons.1 hsteps
    refine Or.inr ⟨x, x :: z :: q, rfl, hstep, rfl, ?_, by simp, hrest⟩
    rw [← hlast, List.getLast?_cons_cons, List.getLast?_cons_cons, List.getLast?_cons_cons]

theorem exists_walk (h : TransGen r a b) : ∃ p, Walk r a b p := by
  induction h using TransGen.head_induction_on with
  | single hstep => exact ⟨_, walk_pair hstep⟩
  | head hstep _ ih =>
    obtain ⟨p, hp⟩ := ih
    exact ⟨_, hp.cons hstep⟩

end Walks

section Search

variable {α : Type}

/-- The marks, the predecessors and what waits, the first marked first. -/
structure Frontier (α : Type) where
  seen : List α
  previous : α → α
  queue : List α

variable [DecidableEq α]

def Frontier.mark (s : Frontier α) (y x : α) : Frontier α :=
  { s with seen := y :: s.seen, previous := Function.update s.previous y x }

omit [DecidableEq α] in
def Frontier.enqueue (s : Frontier α) (y : α) : Frontier α := { s with queue := s.queue ++ [y] }

/-- The successors of `x` in turn, up to one that is wanted. -/
def scan (hit : α → Bool) (x : α) : List α → Frontier α → Bool × Frontier α
  | [], s => (false, s)
  | y :: ys, s =>
    if hit y = true then (true, s)
    else if y ∈ s.seen then scan hit x ys s
    else scan hit x ys ((s.mark y x).enqueue y)

/-- At most so many rounds; the answer has a wanted successor. -/
def search (next : α → List α) (hit : α → Bool) : Nat → Frontier α → Option α × Frontier α
  | 0, s => (none, s)
  | rounds + 1, s =>
    match s.queue with
    | [] => (none, s)
    | x :: queue =>
      match scan hit x (next x) { s with queue := queue } with
      | (true, s) => (some x, s)
      | (false, s) => search next hit rounds s

/-- The predecessors from `y` on, up to the start. -/
def trail (previous : α → α) (start : α) : Nat → α → List α
  | 0, _ => []
  | rounds + 1, y => if y = start then [] else y :: trail previous start rounds (previous y)

/-- Through with `x`: its successors are not wanted, and marked. -/
def Through (next : α → List α) (hit : α → Bool) (seen : List α) (x : α) : Prop :=
  ∀ y ∈ next x, hit y = false ∧ y ∈ seen

/-- The marks lie in layers: the queue is sorted by depth, and nothing is marked more than one
layer behind what waits. -/
structure Layered (next : α → List α) (hit : α → Bool) (start : α) (space : List α)
    (depth : α → Nat) (s : Frontier α) : Prop where
  nodup : s.seen.Nodup
  inside : s.seen ⊆ space
  waiting : s.queue ⊆ s.seen
  root : start ∈ s.seen
  top : depth start = 0
  parent : ∀ y ∈ s.seen, y ≠ start →
    s.previous y ∈ s.seen ∧ y ∈ next (s.previous y) ∧ depth y = depth (s.previous y) + 1
  settled : ∀ y ∈ s.seen, y ∈ s.queue ∨ (Through next hit s.seen y ∧
    ∀ z ∈ next y, depth z ≤ depth y + 1)
  sorted : s.queue.Pairwise fun x y => depth x ≤ depth y
  near : ∀ x ∈ s.queue, ∀ y ∈ s.seen, depth y ≤ depth x + 1

variable {next : α → List α} {hit : α → Bool} {start x y : α} {space : List α}
  {depth : α → Nat} {s : Frontier α}

omit [DecidableEq α] in
theorem Layered.init (previous : α → α) (hstart : start ∈ space) :
    Layered next hit start space (fun _ => 0) ⟨[start], previous, [start]⟩ where
  nodup := List.nodup_singleton start
  inside := fun x hx => by rwa [List.mem_singleton.1 hx]
  waiting := List.Subset.refl _
  root := List.mem_singleton_self start
  top := rfl
  parent := fun y hy hne => absurd (List.mem_singleton.1 hy) hne
  settled := fun y hy => Or.inl hy
  sorted := List.pairwise_singleton _ _
  near := fun _ _ _ _ => Nat.zero_le _

def Frontier.with (s : Frontier α) (x : α) : Frontier α := { s with queue := x :: s.queue }

theorem Layered.visit (h : Layered next hit start space depth (s.with x)) (hy : y ∈ next x)
    (hspace : y ∈ space) (hnew : y ∉ s.seen) :
    Layered next hit start space (Function.update depth y (depth x + 1))
      (((s.mark y x).enqueue y).with x) := by
  have hx : x ∈ s.seen := h.waiting List.mem_cons_self
  have hold {z : α} (hz : z ∈ s.seen) : Function.update depth y (depth x + 1) z = depth z :=
    Function.update_of_ne (ne_of_mem_of_not_mem hz hnew) _ _
  have hqueue {z : α} (hz : z ∈ x :: s.queue) : z ∈ s.seen := h.waiting hz
  have hsplit {z : α} (hz : z ∈ x :: (s.queue ++ [y])) : z ∈ x :: s.queue ∨ z = y := by
    rw [← List.cons_append] at hz
    rcases List.mem_append.1 hz with hz | hz
    · exact Or.inl hz
    · exact Or.inr (List.mem_singleton.1 hz)
  have hnear : ∀ z ∈ s.seen, depth z ≤ depth x + 1 := h.near x List.mem_cons_self
  have hhead : ∀ z ∈ x :: s.queue, depth x ≤ depth z := by
    intro z hz
    rcases List.mem_cons.1 hz with rfl | hz
    · exact Nat.le_refl _
    · exact List.rel_of_pairwise_cons h.sorted hz
  refine ⟨List.nodup_cons.2 ⟨hnew, h.nodup⟩, ?_, ?_, List.mem_cons_of_mem y h.root, ?_, ?_, ?_,
    ?_, ?_⟩
  · intro z hz
    rcases List.mem_cons.1 hz with rfl | hz
    · exact hspace
    · exact h.inside hz
  · intro z hz
    rcases hsplit hz with hz | rfl
    · exact List.mem_cons_of_mem y (hqueue hz)
    · exact List.mem_cons_self
  · rw [hold h.root, h.top]
  · intro z hz hne
    rcases List.mem_cons.1 hz with rfl | hz
    · simp only [Frontier.with, Frontier.enqueue, Frontier.mark, Function.update_self]
      exact ⟨List.mem_cons_of_mem z hx, hy, by rw [hold hx]⟩
    · have hzy : z ≠ y := fun heq => hnew (heq ▸ hz)
      obtain ⟨hseen, hnext, hdepth⟩ := h.parent z hz hne
      simp only [Frontier.with, Frontier.enqueue, Frontier.mark, Function.update_of_ne hzy]
      exact ⟨List.mem_cons_of_mem y hseen, hnext, hdepth.trans (congrArg (· + 1) (hold hseen).symm)⟩
  · intro z hz
    rcases List.mem_cons.1 hz with rfl | hz
    · exact Or.inl (List.mem_cons_of_mem x (List.mem_append_right _ List.mem_cons_self))
    · rcases h.settled z hz with hwait | ⟨hthrough, hdepth⟩
      · refine Or.inl ?_
        rw [Frontier.with, Frontier.enqueue, Frontier.mark, ← List.cons_append]
        exact List.mem_append_left _ hwait
      · refine Or.inr ⟨fun w hw => ?_, fun w hw => ?_⟩
        · exact ⟨(hthrough w hw).1, List.mem_cons_of_mem y (hthrough w hw).2⟩
        · rw [hold hz, hold (hthrough w hw).2]
          exact hdepth w hw
  · rw [Frontier.with, Frontier.enqueue, Frontier.mark, ← List.cons_append, List.pairwise_append]
    refine ⟨?_, List.pairwise_singleton _ _, fun z hz w hw => ?_⟩
    · refine List.Pairwise.imp_of_mem ?_ h.sorted
      intro z w hz hw hle
      rw [hold (hqueue hz), hold (hqueue hw)]
      exact hle
    · rw [List.mem_singleton.1 hw, hold (hqueue hz), Function.update_self]
      exact hnear z (hqueue hz)
  · intro z hz w hw
    have hz' : depth x ≤ Function.update depth y (depth x + 1) z := by
      rcases hsplit hz with hz | rfl
      · rw [hold (hqueue hz)]
        exact hhead z hz
      · rw [Function.update_self]
        exact Nat.le_succ _
    have hw' : Function.update depth y (depth x + 1) w ≤ depth x + 1 := by
      rcases List.mem_cons.1 hw with rfl | hw
      · rw [Function.update_self]
      · rw [hold hw]
        exact hnear w hw
    omega

theorem scan_spec (ys : List α) (h : Layered next hit start space depth (s.with x))
    (hys : ∀ y ∈ ys, y ∈ next x ∧ y ∈ space) :
    ∃ depth', Layered next hit start space depth' ((scan hit x ys s).2.with x) ∧
      s.seen ⊆ (scan hit x ys s).2.seen ∧
      (scan hit x ys s).2.seen.length + s.queue.length =
        s.seen.length + (scan hit x ys s).2.queue.length ∧
      ((scan hit x ys s).1 = true → ∃ y ∈ ys, hit y = true) ∧
      ((scan hit x ys s).1 = false → ∀ y ∈ ys, hit y = false ∧ y ∈ (scan hit x ys s).2.seen) := by
  induction ys generalizing s depth with
  | nil => exact ⟨depth, h, List.Subset.refl _, rfl, Bool.noConfusion, fun _ y hy => by cases hy⟩
  | cons y ys ih =>
    obtain ⟨hy, hspace⟩ := hys y List.mem_cons_self
    have hys' : ∀ z ∈ ys, z ∈ next x ∧ z ∈ space := fun z hz => hys z (List.mem_cons_of_mem y hz)
    rw [scan]
    by_cases hhit : hit y = true
    · rw [if_pos hhit]
      exact ⟨depth, h, List.Subset.refl _, rfl, fun _ => ⟨y, List.mem_cons_self, hhit⟩,
        Bool.noConfusion⟩
    · rw [if_neg hhit]
      have hmiss : hit y = false := by simpa using hhit
      by_cases hseen : y ∈ s.seen
      · rw [if_pos hseen]
        obtain ⟨depth', hlayered, hsub, hlen, hfound, hnone⟩ := ih h hys'
        refine ⟨depth', hlayered, hsub, hlen, fun hf => ?_, fun hf z hz => ?_⟩
        · obtain ⟨z, hz, hhit⟩ := hfound hf
          exact ⟨z, List.mem_cons_of_mem y hz, hhit⟩
        · rcases List.mem_cons.1 hz with rfl | hz
          · exact ⟨hmiss, hsub hseen⟩
          · exact hnone hf z hz
      · rw [if_neg hseen]
        obtain ⟨depth', hlayered, hsub, hlen, hfound, hnone⟩ := ih (h.visit hy hspace hseen) hys'
        have hgrown : y :: s.seen ⊆ (scan hit x ys ((s.mark y x).enqueue y)).2.seen := hsub
        refine ⟨depth', hlayered, ?_, ?_, fun hf => ?_, fun hf z hz => ?_⟩
        · exact List.Subset.trans (List.subset_cons_self y s.seen) hgrown
        · simp only [Frontier.mark, Frontier.enqueue, List.length_cons, List.length_append,
            List.length_nil] at hlen ⊢
          omega
        · obtain ⟨z, hz, hhit⟩ := hfound hf
          exact ⟨z, List.mem_cons_of_mem y hz, hhit⟩
        · rcases List.mem_cons.1 hz with rfl | hz
          · exact ⟨hmiss, hgrown List.mem_cons_self⟩
          · exact hnone hf z hz

omit [DecidableEq α] in
theorem Layered.pop (h : Layered next hit start space depth (s.with x))
    (hdone : Through next hit s.seen x) : Layered next hit start space depth s where
  nodup := h.nodup
  inside := h.inside
  waiting := fun y hy => h.waiting (List.mem_cons_of_mem x hy)
  root := h.root
  top := h.top
  parent := h.parent
  settled := by
    intro y hy
    rcases h.settled y hy with hwait | hdone'
    · rcases List.mem_cons.1 hwait with rfl | hwait
      · exact Or.inr ⟨hdone, fun z hz => h.near y List.mem_cons_self z (hdone z hz).2⟩
      · exact Or.inl hwait
    · exact Or.inr hdone'
  sorted := (List.pairwise_cons.1 h.sorted).2
  near := fun y hy => h.near y (List.mem_cons_of_mem x hy)

/-- How a search ends: with an empty queue, or at work on a vertex with a wanted successor. -/
def Ended (next : α → List α) (hit : α → Bool) (start : α) (space : List α) :
    Option α × Frontier α → Prop
  | (none, s) => ∃ depth, Layered next hit start space depth s ∧ s.queue = []
  | (some x, s) => ∃ depth, Layered next hit start space depth (s.with x) ∧
      ∃ y ∈ next x, hit y = true

theorem search_spec (hclosed : ∀ x ∈ space, next x ⊆ space) (rounds : Nat)
    (h : Layered next hit start space depth s)
    (hrounds : space.length + s.queue.length < rounds + s.seen.length) :
    Ended next hit start space (search next hit rounds s) := by
  induction rounds generalizing s depth with
  | zero =>
    have hle : s.seen.length ≤ space.length := (h.nodup.subperm h.inside).length_le
    omega
  | succ rounds ih =>
    rw [search]
    cases hqueue : s.queue with
    | nil => exact ⟨depth, h, hqueue⟩
    | cons x queue =>
      have hwork : Layered next hit start space depth (Frontier.with { s with queue := queue } x) := by
        rw [Frontier.with, ← hqueue]
        exact h
      have hx : x ∈ space := hwork.inside (hwork.waiting List.mem_cons_self)
      have hscan := scan_spec (next x) hwork fun y hy => ⟨hy, hclosed x hx hy⟩
      obtain ⟨depth', hlayered, -, hlen, hfound, hnone⟩ := hscan
      simp only
      cases hres : scan hit x (next x) { s with queue := queue } with
      | mk found s' =>
        rw [hres] at hlayered hlen hfound hnone
        cases found with
        | true => exact ⟨depth', hlayered, hfound rfl⟩
        | false =>
          apply ih (hlayered.pop (hnone rfl))
          rw [hqueue, List.length_cons] at hrounds
          change s'.seen.length + queue.length = s.seen.length + s'.queue.length at hlen
          change space.length + s'.queue.length < rounds + s'.seen.length
          omega

omit [DecidableEq α] in
theorem Layered.level (h : Layered next hit start space depth s) {n : Nat} {y : α}
    (hsteps : Steps (fun a b => b ∈ next a) start n y) :
    (y ∈ s.seen ∧ depth y ≤ n) ∨ ∃ x ∈ s.queue, depth x ≤ n := by
  induction hsteps with
  | start => exact Or.inl ⟨h.root, by rw [h.top]⟩
  | step _ hstep ih =>
    rcases ih with ⟨hseen, hle⟩ | ⟨x, hx, hle⟩
    · rcases h.settled _ hseen with hwait | ⟨hthrough, hdepth⟩
      · exact Or.inr ⟨_, hwait, Nat.le_succ_of_le hle⟩
      · exact Or.inl ⟨(hthrough _ hstep).2, (hdepth _ hstep).trans (Nat.succ_le_succ hle)⟩
    · exact Or.inr ⟨x, hx, Nat.le_succ_of_le hle⟩

theorem Layered.trail_spec (h : Layered next hit start space depth s) (rounds : Nat)
    (hy : y ∈ s.seen) (hrounds : depth y < rounds) :
    let c := trail s.previous start rounds y ++ [start]
    c.head? = some y ∧ c.length = depth y + 1 ∧ c.IsChain (fun a b => a ∈ next b) ∧
      (∀ z ∈ c, z ∈ s.seen ∧ depth z ≤ depth y) ∧ c.Pairwise (fun z w => depth w < depth z) := by
  induction rounds generalizing y with
  | zero => exact absurd hrounds (Nat.not_lt_zero _)
  | succ rounds ih =>
    rw [trail]
    by_cases hstart : y = start
    · subst hstart
      rw [if_pos rfl]
      refine ⟨rfl, by rw [h.top]; rfl, List.isChain_singleton _, fun z hz => ?_,
        List.pairwise_singleton _ _⟩
      rw [List.mem_singleton.1 hz]
      exact ⟨hy, Nat.le_refl _⟩
    · rw [if_neg hstart]
      obtain ⟨hprev, hnext, hdepth⟩ := h.parent y hy hstart
      obtain ⟨hhead, hlen, hchain, hseen, hpair⟩ := ih hprev (by omega)
      simp only [List.cons_append]
      refine ⟨rfl, by rw [List.length_cons, hlen, hdepth], ?_, ?_, ?_⟩
      · rw [List.isChain_cons]
        refine ⟨fun z hz => ?_, hchain⟩
        rw [hhead] at hz
        obtain rfl : s.previous y = z := by simpa using hz
        exact hnext
      · intro z hz
        rcases List.mem_cons.1 hz with rfl | hz
        · exact ⟨hy, Nat.le_refl _⟩
        · obtain ⟨hz, hle⟩ := hseen z hz
          exact ⟨hz, by omega⟩
      · refine List.pairwise_cons.2 ⟨fun z hz => ?_, hpair⟩
        have hle := (hseen z hz).2
        omega

theorem Layered.depth_lt (h : Layered next hit start space depth s) (hy : y ∈ s.seen) :
    depth y < space.length := by
  obtain ⟨-, hlen, -, hseen, hpair⟩ := h.trail_spec (depth y + 1) hy (Nat.lt_succ_self _)
  have hnodup : (trail s.previous start (depth y + 1) y ++ [start]).Nodup := by
    refine hpair.imp ?_
    intro z w hlt heq
    rw [heq] at hlt
    exact Nat.lt_irrefl _ hlt
  have hsub := (hnodup.subperm fun z hz => h.inside (hseen z hz).1).length_le
  omega

omit [DecidableEq α] in
theorem Layered.complete (h : Layered next hit start space depth s) (hqueue : s.queue = [])
    (hway : ReflTransGen (fun a b => b ∈ next a) start y) :
    y ∈ s.seen ∧ Through next hit s.seen y := by
  have hthrough : ∀ x ∈ s.seen, Through next hit s.seen x := by
    intro x hx
    rcases h.settled x hx with hwait | hdone
    · rw [hqueue] at hwait
      cases hwait
    · exact hdone.1
  have hseen : y ∈ s.seen := by
    induction hway with
    | refl => exact h.root
    | tail _ hstep ih => exact (hthrough _ ih _ hstep).2
  exact ⟨hseen, hthrough y hseen⟩

omit [DecidableEq α] in
theorem Layered.reached (h : Layered next hit start space depth s) (hy : y ∈ s.seen) :
    ReflTransGen (fun a b => b ∈ next a) start y := by
  obtain ⟨n, hn⟩ : ∃ n, depth y = n := ⟨_, rfl⟩
  induction n generalizing y with
  | zero =>
    by_cases hstart : y = start
    · rw [hstart]
    · have hdepth := (h.parent y hy hstart).2.2
      omega
  | succ n ih =>
    by_cases hstart : y = start
    · rw [hstart]
    · obtain ⟨hprev, hnext, hdepth⟩ := h.parent y hy hstart
      exact (ih hprev (by omega)).tail hnext

def answer (start wanted : α) (rounds : Nat) : Option α × Frontier α → Option (List α)
  | (none, _) => none
  | (some x, s) => some (start :: (trail s.previous start rounds x).reverse ++ [wanted])

theorem Ended.shortest {wanted : α} {result : Option α × Frontier α}
    (h : Ended next (fun y => y == wanted) start space result) (rounds : Nat)
    (hrounds : space.length ≤ rounds) :
    ShortestWalk (fun a b => b ∈ next a) start wanted (answer start wanted rounds result) := by
  obtain ⟨found, s⟩ := result
  cases found with
  | none =>
    obtain ⟨depth, hlayered, hqueue⟩ := h
    intro p hwalk
    obtain ⟨x, hsteps, hlast⟩ := hwalk.last_step
    have hmiss := ((hlayered.complete hqueue hsteps.reaches).2 wanted hlast).1
    simp at hmiss
  | some x =>
    obtain ⟨depth, hlayered, y, hy, hhit⟩ := h
    have hy' : y = wanted := by simpa using hhit
    subst hy'
    have hx : x ∈ s.seen := hlayered.waiting List.mem_cons_self
    have hfew : depth x < rounds := Nat.lt_of_lt_of_le (hlayered.depth_lt hx) hrounds
    obtain ⟨hhead, hlen, hchain, -, -⟩ := hlayered.trail_spec rounds hx hfew
    have hback : start :: (trail s.previous start rounds x).reverse =
        (trail s.previous start rounds x ++ [start]).reverse := by
      rw [List.reverse_append]
      rfl
    have hlength : (start :: (trail s.previous start rounds x).reverse).length = depth x + 1 := by
      rw [hback, List.length_reverse]
      exact hlen
    refine ⟨⟨rfl, ?_, ?_, ?_⟩, fun q hq => ?_⟩
    · exact List.getLast?_concat
    · simp
    · rw [List.isChain_append]
      refine ⟨?_, List.isChain_singleton _, fun z hz w hw => ?_⟩
      · rw [hback, List.isChain_reverse]
        exact hchain
      · have hw' : y = w := by simpa using hw
        subst hw'
        rw [hback, List.getLast?_reverse] at hz
        have hz' : x = z := by
          have hboth := hhead.symm.trans hz
          simpa using hboth
        subst hz'
        exact hy
    · obtain ⟨z, hsteps, hlast⟩ := hq.last_step
      have hlong := hq.long
      -- the last vertex before the end waits, or something nearer does
      have hnear : depth x ≤ q.length - 2 := by
        have hleast {w : α} (hw : w ∈ x :: s.queue) : depth x ≤ depth w := by
          rcases List.mem_cons.1 hw with rfl | hw
          · exact Nat.le_refl _
          · exact List.rel_of_pairwise_cons hlayered.sorted hw
        rcases hlayered.level hsteps with ⟨hz, hle⟩ | ⟨w, hw, hle⟩
        · rcases hlayered.settled z hz with hwait | ⟨hdone, -⟩
          · exact (hleast hwait).trans hle
          · have hmiss := (hdone y hlast).1
            simp at hmiss
        · exact (hleast hw).trans hle
      rw [List.length_append, hlength, List.length_singleton]
      omega

end Search

end XPerl.Framework.BreadthFirst
