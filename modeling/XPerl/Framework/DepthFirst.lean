import Mathlib.Algebra.GroupWithZero.Nat
import Mathlib.Data.List.Nodup
import Mathlib.Data.List.Perm.Subperm

/-! Depth-first search: the recursive search, its orders, and a machine with an explicit stack. -/

namespace XPerl.Framework.DepthFirst

open Relation

variable {α : Type}

/-- The trees a search visits. -/
inductive Forest (α : Type) where
  | nil
  | cons (root : α) (children rest : Forest α)

def Forest.preorder : Forest α → List α
  | .nil => []
  | .cons x f g => x :: (f.preorder ++ g.preorder)

def Forest.postorder : Forest α → List α
  | .nil => []
  | .cons x f g => f.postorder ++ x :: g.postorder

/-- The recursive search: what is not marked yet is marked and visited, its successors in their
order first. -/
inductive Dfs (next : α → List α) : List α → List α → Forest α → List α → Prop
  | nil {seen : List α} : Dfs next [] seen .nil seen
  | skip {x : α} {xs seen seen' : List α} {f : Forest α} (hseen : x ∈ seen)
      (hrest : Dfs next xs seen f seen') : Dfs next (x :: xs) seen f seen'
  | visit {x : α} {xs seen seen₁ seen' : List α} {f g : Forest α} (hnew : x ∉ seen)
      (hchildren : Dfs next (next x) (x :: seen) f seen₁) (hrest : Dfs next xs seen₁ g seen') :
      Dfs next (x :: xs) seen (.cons x f g) seen'

theorem Forest.postorder_perm (f : Forest α) : f.postorder.Perm f.preorder := by
  induction f with
  | nil => exact List.Perm.refl _
  | cons x f g ihf ihg => exact List.perm_middle.trans ((ihf.append ihg).cons x)

theorem Forest.mem_postorder {f : Forest α} {y : α} : y ∈ f.postorder ↔ y ∈ f.preorder :=
  f.postorder_perm.mem_iff

section Recursive

variable {next : α → List α} {todo seen seen' : List α} {f : Forest α} {x y : α}

section Visited

variable (h : Dfs next todo seen f seen')

include h

theorem Dfs.mem_iff : y ∈ seen' ↔ y ∈ seen ∨ y ∈ f.preorder := by
  induction h with
  | nil => simp [Forest.preorder]
  | skip _ _ ih => exact ih
  | visit _ _ _ ihf ihg =>
    simp only [ihg, ihf, Forest.preorder, List.mem_cons, List.mem_append]
    tauto

theorem Dfs.subset : seen ⊆ seen' :=
  fun _ hy => h.mem_iff.2 (Or.inl hy)

theorem Dfs.fresh (hy : y ∈ f.preorder) : y ∉ seen := by
  induction h with
  | nil => cases hy
  | skip _ _ ih => exact ih hy
  | visit hnew hchildren _ ihf ihg =>
    rcases List.mem_cons.1 hy with rfl | hy
    · exact hnew
    · rcases List.mem_append.1 hy with hy | hy
      · exact fun hseen => ihf hy (List.mem_cons_of_mem _ hseen)
      · exact fun hseen => ihg hy (hchildren.subset (List.mem_cons_of_mem _ hseen))

theorem Dfs.nodup : f.preorder.Nodup := by
  induction h with
  | nil => exact List.nodup_nil
  | skip _ _ ih => exact ih
  | visit hnew hchildren hrest ihf ihg =>
    rw [Forest.preorder, List.nodup_cons, List.nodup_append]
    refine ⟨fun hx => ?_, ihf, ihg, fun y hy z hz heq => ?_⟩
    · rcases List.mem_append.1 hx with hx | hx
      · exact hchildren.fresh hx List.mem_cons_self
      · exact hrest.fresh hx (hchildren.subset List.mem_cons_self)
    · subst heq
      exact hrest.fresh hz (hchildren.mem_iff.2 (Or.inr hy))

theorem Dfs.todo_subset : todo ⊆ seen' := by
  induction h with
  | nil => exact List.nil_subset _
  | skip hseen hrest ih => exact List.cons_subset.2 ⟨hrest.subset hseen, ih⟩
  | visit _ hchildren hrest _ ihg =>
    exact List.cons_subset.2 ⟨hrest.subset (hchildren.subset List.mem_cons_self), ihg⟩

theorem Dfs.closed (hy : y ∈ f.preorder) : next y ⊆ seen' := by
  induction h with
  | nil => cases hy
  | skip _ _ ih => exact ih hy
  | visit _ hchildren hrest ihf ihg =>
    rcases List.mem_cons.1 hy with rfl | hy
    · exact List.Subset.trans hchildren.todo_subset hrest.subset
    · rcases List.mem_append.1 hy with hy | hy
      · exact List.Subset.trans (ihf hy) hrest.subset
      · exact ihg hy

theorem Dfs.reached (hy : y ∈ f.preorder) :
    ∃ x ∈ todo, ReflTransGen (fun a b => b ∈ next a) x y := by
  induction h with
  | nil => cases hy
  | skip _ _ ih =>
    obtain ⟨z, hz, hway⟩ := ih hy
    exact ⟨z, List.mem_cons_of_mem _ hz, hway⟩
  | visit _ _ _ ihf ihg =>
    rcases List.mem_cons.1 hy with rfl | hy
    · exact ⟨y, List.mem_cons_self, ReflTransGen.refl⟩
    · rcases List.mem_append.1 hy with hy | hy
      · obtain ⟨z, hz, hway⟩ := ihf hy
        exact ⟨_, List.mem_cons_self, hway.head hz⟩
      · obtain ⟨z, hz, hway⟩ := ihg hy
        exact ⟨z, List.mem_cons_of_mem _ hz, hway⟩

end Visited

theorem Dfs.mem_preorder_iff (h : Dfs next todo [] f seen') :
    y ∈ f.preorder ↔ ∃ x ∈ todo, ReflTransGen (fun a b => b ∈ next a) x y := by
  have hmem {z : α} : z ∈ seen' ↔ z ∈ f.preorder := by
    rw [h.mem_iff]
    simp
  constructor
  · exact h.reached
  · intro hway
    obtain ⟨x, hx, hway⟩ := hway
    induction hway with
    | refl => exact hmem.1 (h.todo_subset hx)
    | tail _ hstep ih => exact hmem.1 (h.closed ih hstep)

theorem Dfs.unique {f' : Forest α} {seen'' : List α} (h : Dfs next todo seen f seen')
    (h' : Dfs next todo seen f' seen'') : f = f' ∧ seen' = seen'' := by
  induction h generalizing f' seen'' with
  | nil =>
    cases h' with
    | nil => exact ⟨rfl, rfl⟩
  | skip hseen _ ih =>
    cases h' with
    | skip _ hrest => exact ih hrest
    | visit hnew => exact absurd hseen hnew
  | visit hnew _ _ ihf ihg =>
    cases h' with
    | skip hseen => exact absurd hseen hnew
    | visit _ hchildren hrest =>
      obtain ⟨rfl, rfl⟩ := ihf hchildren
      obtain ⟨rfl, rfl⟩ := ihg hrest
      exact ⟨rfl, rfl⟩

theorem exists_dfs {space : List α} (hclosed : ∀ x ∈ space, next x ⊆ space) (n : Nat)
    (todo seen : List α) (hn : space.length ≤ n + seen.length) (hnodup : seen.Nodup)
    (hseen : seen ⊆ space) (htodo : todo ⊆ space) :
    ∃ f seen', Dfs next todo seen f seen' ∧ seen'.Nodup ∧ seen' ⊆ space ∧
      seen.length ≤ seen'.length := by
  induction n generalizing todo seen with
  | zero =>
    -- everything is marked
    have hall : ∀ x ∈ space, x ∈ seen := by
      intro x hx
      apply Classical.byContradiction
      intro hnew
      have hle := (List.Nodup.subperm (List.nodup_cons.2 ⟨hnew, hnodup⟩)
        (List.cons_subset.2 ⟨hx, hseen⟩)).length_le
      rw [List.length_cons] at hle
      omega
    refine ⟨.nil, seen, ?_, hnodup, hseen, Nat.le_refl _⟩
    clear hn
    induction todo with
    | nil => exact Dfs.nil
    | cons x xs ih =>
      obtain ⟨hx, hxs⟩ := List.cons_subset.1 htodo
      exact Dfs.skip (hall x hx) (ih hxs)
  | succ n ih =>
    induction todo generalizing seen with
    | nil => exact ⟨.nil, seen, Dfs.nil, hnodup, hseen, Nat.le_refl _⟩
    | cons x xs ihxs =>
      obtain ⟨hx, hxs⟩ := List.cons_subset.1 htodo
      by_cases hmark : x ∈ seen
      · obtain ⟨f, seen', hdfs, hrest⟩ := ihxs seen hn hnodup hseen hxs
        exact ⟨f, seen', Dfs.skip hmark hdfs, hrest⟩
      · obtain ⟨f, seen₁, hchildren, hnodup₁, hseen₁, hlen₁⟩ := ih (next x) (x :: seen)
          (by rw [List.length_cons]; omega) (List.nodup_cons.2 ⟨hmark, hnodup⟩)
          (List.cons_subset.2 ⟨hx, hseen⟩) (hclosed x hx)
        rw [List.length_cons] at hlen₁
        obtain ⟨g, seen', hrest, hnodup', hseen', hlen'⟩ :=
          ihxs seen₁ (by omega) hnodup₁ hseen₁ hxs
        exact ⟨.cons x f g, seen', Dfs.visit hmark hchildren hrest, hnodup', hseen', by omega⟩

end Recursive

section Finishing

variable {next : α → List α} {l l₁ l₂ : List α} {x y : α}

/-- An edge to something that finishes later starts below its end, as does all that finishes in
between. -/
def NoCross (next : α → List α) : List α → Prop
  | [] => True
  | z :: l => (∀ b w c, l = b ++ w :: c → w ∈ next z →
      ∀ v ∈ z :: b, ReflTransGen (fun a b => b ∈ next a) w v) ∧ NoCross next l

theorem NoCross.append (h₁ : NoCross next l₁) (h₂ : NoCross next l₂)
    (hno : ∀ z ∈ l₁, ∀ w ∈ l₂, w ∉ next z) : NoCross next (l₁ ++ l₂) := by
  induction l₁ with
  | nil => exact h₂
  | cons z l₁ ih =>
    refine ⟨fun b w c hsplit hedge => ?_,
      ih h₁.2 fun v hv => hno v (List.mem_cons_of_mem z hv)⟩
    have hnot : w ∉ l₂ := fun hw => hno z List.mem_cons_self w hw hedge
    rcases List.append_eq_append_iff.1 hsplit with ⟨a, -, hl₂⟩ | ⟨c', hl₁, hc⟩
    · exact absurd (by rw [hl₂]; exact List.mem_append_right a List.mem_cons_self) hnot
    · cases c' with
      | nil => exact absurd (by rw [List.nil_append] at hc; rw [← hc]; exact List.mem_cons_self) hnot
      | cons w' c' =>
        obtain ⟨rfl, -⟩ := List.cons.inj hc
        exact h₁.1 b w c' hl₁ hedge

theorem NoCross.concat (h : NoCross next l)
    (hx : ∀ v ∈ l, ReflTransGen (fun a b => b ∈ next a) x v) : NoCross next (l ++ [x]) := by
  induction l with
  | nil =>
    refine ⟨fun b w c hsplit _ => ?_, trivial⟩
    cases b with
    | nil => cases hsplit
    | cons _ _ => cases hsplit
  | cons z l ih =>
    refine ⟨fun b w c hsplit hedge => ?_, ih h.2 fun v hv => hx v (List.mem_cons_of_mem z hv)⟩
    rcases List.append_eq_append_iff.1 hsplit with ⟨a, hb, hl⟩ | ⟨c', hl, hc⟩
    · cases a with
      | nil =>
        obtain ⟨rfl, -⟩ := List.cons.inj hl
        rw [List.append_nil] at hb
        rw [hb]
        exact hx
      | cons _ a => simp at hl
    · cases c' with
      | nil =>
        obtain ⟨rfl, -⟩ := List.cons.inj hc
        rw [List.append_nil] at hl
        rw [← hl]
        exact hx
      | cons w' c' =>
        obtain ⟨rfl, -⟩ := List.cons.inj hc
        exact h.1 b w c' hl hedge

theorem NoCross.left (h : NoCross next (l₁ ++ l₂)) : NoCross next l₁ := by
  induction l₁ with
  | nil => trivial
  | cons z l₁ ih =>
    refine ⟨fun b w c hsplit hedge => h.1 b w (c ++ l₂) ?_ hedge, ih h.2⟩
    rw [hsplit]
    simp

theorem NoCross.right (h : NoCross next (l₁ ++ l₂)) : NoCross next l₂ := by
  induction l₁ with
  | nil => exact h
  | cons z l₁ ih => exact ih h.2

theorem Dfs.noCross {todo seen seen' : List α} {f : Forest α} (h : Dfs next todo seen f seen') :
    NoCross next f.postorder := by
  induction h with
  | nil => trivial
  | skip _ _ ih => exact ih
  | @visit x xs seen seen₁ seen' f g hnew hchildren hrest ihf ihg =>
    rw [Forest.postorder, List.append_cons]
    apply NoCross.append _ ihg
    · intro z hz w hw hedge
      have hseen : w ∈ seen₁ := by
        rcases List.mem_append.1 hz with hz | hz
        · exact hchildren.closed (Forest.mem_postorder.1 hz) hedge
        · rw [List.mem_singleton.1 hz] at hedge
          exact hchildren.todo_subset hedge
      exact hrest.fresh (Forest.mem_postorder.1 hw) hseen
    · apply ihf.concat
      intro v hv
      obtain ⟨z, hz, hway⟩ := hchildren.reached (Forest.mem_postorder.1 hv)
      exact hway.head hz

theorem NoCross.back (h : NoCross next (l ++ [y])) (hnodup : (l ++ [y]).Nodup)
    (hway : ReflTransGen (fun a b => b ∈ next a ∧ a ∈ l ++ [y] ∧ b ∈ l ++ [y]) x y)
    (hx : x ∈ l ++ [y]) : ReflTransGen (fun a b => b ∈ next a) y x := by
  have hy : y ∉ l := by
    intro hmem
    exact (List.nodup_append.1 hnodup).2.2 y hmem y (List.mem_singleton_self y) rfl
  -- all that finishes from `x` on is reached
  have hall : ∀ a b, l ++ [y] = a ++ x :: b →
      ∀ v ∈ x :: b, ReflTransGen (fun a b => b ∈ next a) y v := by
    induction hway using ReflTransGen.head_induction_on with
    | refl =>
      intro a b hsplit v hv
      rcases List.append_eq_append_iff.1 hsplit with ⟨a', -, hc⟩ | ⟨c, hl, hc⟩
      · cases a' with
        | nil =>
          obtain ⟨-, rfl⟩ := List.cons.inj hc
          rw [List.mem_singleton.1 hv]
        | cons _ a' => simp at hc
      · cases c with
        | nil =>
          obtain ⟨-, rfl⟩ := List.cons.inj hc
          rw [List.mem_singleton.1 hv]
        | cons y' c =>
          obtain ⟨rfl, -⟩ := List.cons.inj hc
          rw [hl] at hy
          exact absurd (List.mem_append_right a List.mem_cons_self) hy
    | head hstep _ ih =>
      rename_i z w hrest
      intro a b hsplit v hv
      obtain ⟨hedge, -, hw⟩ := hstep
      obtain ⟨a', b', hsplit'⟩ := List.append_of_mem hw
      have hreach := ih hw a' b' hsplit'
      rcases List.append_eq_append_iff.1 (hsplit.symm.trans hsplit') with ⟨c, -, hb⟩ | ⟨c, -, hb⟩
      · cases c with
        | nil =>
          obtain ⟨rfl, rfl⟩ := List.cons.inj hb
          exact hreach v hv
        | cons z' c =>
          -- the edge leads to something that finishes later
          obtain rfl := (List.cons.inj hb).1
          rw [hsplit] at h
          have hb' : b = c ++ w :: b' := by simpa using hb
          have hbelow := h.right.1 c w b' hb' hedge
          rw [hb', ← List.cons_append] at hv
          rcases List.mem_append.1 hv with hv | hv
          · exact (hreach w List.mem_cons_self).trans (hbelow v hv)
          · exact hreach v hv
      · rw [hb] at hreach
        exact hreach v (List.mem_append_right c hv)
  obtain ⟨a, b, hsplit⟩ := List.append_of_mem hx
  exact hall a b hsplit x List.mem_cons_self

end Finishing

section Machine

/-- A search that keeps its way on a stack, with the place in its list where each vertex goes on. -/
structure Machine (α : Type) where
  stack : List α
  positions : α → Nat
  seen : List α
  order : List α

open Machine

variable [DecidableEq α]

/-- The vertex on top looks at its next successor, or leaves the stack. -/
def Machine.step (next : α → List α) (post : Bool) (s : Machine α) : Machine α :=
  match s.stack with
  | [] => s
  | x :: rest =>
    match (next x)[s.positions x]? with
    | some y =>
      let positions := Function.update s.positions x (s.positions x + 1)
      if y ∈ s.seen then { s with positions := positions }
      else ⟨y :: x :: rest, positions, y :: s.seen, if post then s.order else s.order ++ [y]⟩
    | none => ⟨rest, s.positions, s.seen, if post then s.order ++ [x] else s.order⟩

def Machine.run (next : α → List α) (post : Bool) : Nat → Machine α → Machine α
  | 0, s => s
  | rounds + 1, s => Machine.run next post rounds (s.step next post)

/-- What a machine writes for the trees it visits. -/
def Forest.order (post : Bool) (f : Forest α) : List α :=
  if post then f.postorder else f.preorder

def cost (next : α → List α) (xs : List α) : Nat := (xs.map fun x => (next x).length + 1).sum

variable {next : α → List α} {post : Bool} {todo seen seen' : List α} {f : Forest α} {x : α}

theorem Machine.run_add (n m : Nat) (s : Machine α) :
    run next post (n + m) s = run next post m (run next post n s) := by
  induction n generalizing s with
  | zero => rw [Nat.zero_add, run]
  | succ n ih => rw [Nat.succ_add, run, run, ih]

theorem Machine.run_done (rounds : Nat) {s : Machine α} (h : s.stack = []) :
    run next post rounds s = s := by
  induction rounds with
  | zero => rfl
  | succ rounds ih =>
    have hstep : s.step next post = s := by
      rw [step, h]
    rw [run, hstep, ih]

omit [DecidableEq α] in
theorem drop_cons {xs ys : List α} {n : Nat} {y : α} (h : xs.drop n = y :: ys) :
    xs[n]? = some y ∧ xs.drop (n + 1) = ys := by
  constructor
  · rw [← List.head?_drop, h, List.head?_cons]
  · rw [← List.tail_drop, h, List.tail_cons]

theorem Dfs.machine (h : Dfs next todo seen f seen') (post : Bool) (v : α) (rest : List α)
    (positions : α → Nat)
    (order : List α) (hv : v ∈ seen) (hleft : (next v).drop (positions v) = todo)
    (hzero : ∀ x, x ∉ seen → positions x = 0) :
    ∃ positions', run next post (todo.length + cost next f.preorder)
        ⟨v :: rest, positions, seen, order⟩ =
          ⟨v :: rest, positions', seen', order ++ f.order post⟩ ∧
      (next v).drop (positions' v) = [] ∧ (∀ x, x ∉ seen' → positions' x = 0) ∧
      ∀ w ∈ seen, w ≠ v → positions' w = positions w := by
  induction h generalizing v rest positions order with
  | @nil seen =>
    refine ⟨positions, ?_, hleft, hzero, fun _ _ _ => rfl⟩
    cases post with
    | false => simp [Forest.preorder, cost, run, Forest.order]
    | true => simp [Forest.preorder, Forest.postorder, cost, run, Forest.order]
  | @skip x xs seen seen' f hseen _ ih =>
    obtain ⟨hget, hdrop⟩ := drop_cons hleft
    have hzero' : ∀ y, y ∉ seen →
        Function.update positions v (positions v + 1) y = 0 := by
      intro y hy
      rw [Function.update_of_ne (ne_of_mem_of_not_mem hv hy).symm]
      exact hzero y hy
    obtain ⟨positions', hrun, hend, hfresh, hkept⟩ :=
      ih v rest (Function.update positions v (positions v + 1)) order hv
        (by rw [Function.update_self]; exact hdrop) hzero'
    refine ⟨positions', ?_, hend, hfresh, fun w hw hne => ?_⟩
    · have hstep : step next post ⟨v :: rest, positions, seen, order⟩ =
          ⟨v :: rest, Function.update positions v (positions v + 1), seen, order⟩ := by
        simp [step, hget, hseen]
      rw [List.length_cons, Nat.add_right_comm, run, hstep, hrun]
    · rw [hkept w hw hne, Function.update_of_ne hne]
  | @visit x xs seen seen₁ seen' f g hnew hchildren hrest ihf ihg =>
    obtain ⟨hget, hdrop⟩ := drop_cons hleft
    have hxv : x ≠ v := (ne_of_mem_of_not_mem hv hnew).symm
    have hx : Function.update positions v (positions v + 1) x = 0 := by
      rw [Function.update_of_ne hxv]
      exact hzero x hnew
    -- the successors of `x`, with `v` below it on the stack
    obtain ⟨positions₁, hrun₁, hend₁, hfresh₁, hkept₁⟩ :=
      ihf x (v :: rest) (Function.update positions v (positions v + 1))
        (if post then order else order ++ [x]) List.mem_cons_self (by rw [hx, List.drop_zero])
        (fun y hy => by
          have hyv : y ≠ v := fun heq => hy (List.mem_cons_of_mem x (heq ▸ hv))
          rw [Function.update_of_ne hyv]
          exact hzero y fun hmem => hy (List.mem_cons_of_mem x hmem))
    have hv₁ : positions₁ v = positions v + 1 := by
      rw [hkept₁ v (List.mem_cons_of_mem x hv) hxv.symm, Function.update_self]
    have hseen₁ : seen ⊆ seen₁ := List.Subset.trans (List.subset_cons_self x seen) hchildren.subset
    obtain ⟨positions', hrun', hend', hfresh', hkept'⟩ :=
      ihg v rest positions₁
        (if post then (if post then order else order ++ [x]) ++ f.order post ++ [x]
          else (if post then order else order ++ [x]) ++ f.order post)
        (hseen₁ hv) (by rw [hv₁]; exact hdrop) hfresh₁
    refine ⟨positions', ?_, hend', hfresh', fun w hw hne => ?_⟩
    · have hpush : step next post ⟨v :: rest, positions, seen, order⟩ =
          ⟨x :: v :: rest, Function.update positions v (positions v + 1), x :: seen,
            if post then order else order ++ [x]⟩ := by
        simp [step, hget, hnew]
      have hpop : ∀ order', step next post ⟨x :: v :: rest, positions₁, seen₁, order'⟩ =
          ⟨v :: rest, positions₁, seen₁, if post then order' ++ [x] else order'⟩ := by
        intro order'
        have hnone : (next x)[positions₁ x]? = none :=
          List.getElem?_eq_none_iff.2 (List.drop_eq_nil_iff.1 hend₁)
        simp [step, hnone]
      have hcost : (x :: xs).length + cost next (Forest.cons x f g).preorder =
          1 + ((next x).length + cost next f.preorder) + 1 +
            (xs.length + cost next g.preorder) := by
        simp only [cost, Forest.preorder, List.map_cons, List.map_append, List.sum_cons,
          List.sum_append, List.length_cons]
        omega
      rw [hcost, run_add (1 + _ + 1), run_add (1 + _), run_add 1]
      have hone (s : Machine α) : run next post 1 s = s.step next post := rfl
      rw [hone ⟨v :: rest, positions, seen, order⟩, hpush, hrun₁, hone, hpop, hrun']
      cases post with
      | false => simp [Forest.order, Forest.preorder]
      | true => simp [Forest.order, Forest.postorder]
    · rw [hkept' w (hseen₁ hw) hne, hkept₁ w (List.mem_cons_of_mem x hw)
        (ne_of_mem_of_not_mem hw hnew), Function.update_of_ne hne]

theorem Dfs.machine_root {seen : List α} (h : Dfs next (next x) (x :: seen) f seen')
    (post : Bool) (order : List α) {rounds : Nat}
    (hrounds : cost next (Forest.cons x f .nil).preorder ≤ rounds) :
    ∃ positions, run next post rounds
      ⟨[x], fun _ => 0, x :: seen, if post then order else order ++ [x]⟩ =
        ⟨[], positions, seen', order ++ (Forest.cons x f .nil).order post⟩ := by
  obtain ⟨positions, hrun, hend, -, -⟩ := h.machine post x [] (fun _ => 0)
    (if post then order else order ++ [x]) List.mem_cons_self List.drop_zero fun _ _ => rfl
  have hcost : cost next (Forest.cons x f .nil).preorder =
      (next x).length + cost next f.preorder + 1 := by
    simp only [cost, Forest.preorder, List.append_nil, List.map_cons, List.sum_cons]
    omega
  obtain ⟨more, rfl⟩ := Nat.exists_eq_add_of_le hrounds
  have hnone : (next x)[positions x]? = none :=
    List.getElem?_eq_none_iff.2 (List.drop_eq_nil_iff.1 hend)
  refine ⟨positions, ?_⟩
  rw [hcost, run_add, run_add, hrun]
  have hone (s : Machine α) : run next post 1 s = s.step next post := rfl
  rw [hone]
  have hpop (order' : List α) : step next post ⟨[x], positions, seen', order'⟩ =
      ⟨[], positions, seen', if post then order' ++ [x] else order'⟩ := by
    simp [step, hnone]
  rw [hpop, run_done more rfl]
  cases post with
  | false => simp [Forest.order, Forest.preorder]
  | true => simp [Forest.order, Forest.postorder]

omit [DecidableEq α] in
theorem cost_le {xs space : List α} (hnodup : xs.Nodup) (hsub : xs ⊆ space) :
    cost next xs ≤ cost next space := by
  obtain ⟨ys, hperm, hys⟩ := hnodup.subperm hsub
  rw [cost, cost, ← (hperm.map _).sum_nat]
  clear hperm hsub
  induction hys with
  | slnil => exact Nat.le_refl _
  | cons y _ ih =>
    rw [List.map_cons, List.sum_cons]
    exact Nat.le_trans ih (Nat.le_add_left _ _)
  | cons_cons y _ ih =>
    rw [List.map_cons, List.map_cons, List.sum_cons, List.sum_cons]
    exact Nat.add_le_add_left ih _

end Machine

end XPerl.Framework.DepthFirst
