import Mathlib.Data.List.Nodup
import Mathlib.Data.List.Perm.Subperm

/-! Numbered marks that spread along successors, and the classes a sweep of such floods finds. -/

namespace XPerl.Framework.Flooding

open Relation

variable {α : Type}

section Flood

variable [DecidableEq α]

/-- A look at `y`: what has no mark gets this one and goes on the stack. -/
def touch (mark : Nat) (s : List α × (α → Nat)) (y : α) : List α × (α → Nat) :=
  if s.2 y = 0 then (y :: s.1, Function.update s.2 y mark) else s

def flood (next : α → List α) (mark : Nat) : Nat → List α → (α → Nat) → α → Nat
  | 0, _, marks => marks
  | _ + 1, [], marks => marks
  | rounds + 1, x :: stack, marks =>
    let s := (next x).foldl (touch mark) (stack, marks)
    flood next mark rounds s.1 s.2

def Way (next : α → List α) (old : α → Nat) (start x : α) : Prop :=
  ReflTransGen (fun a b => b ∈ next a ∧ old b = 0) start x

/-- What holds in a flood; `new` lists what it has marked. -/
structure Spreading (next : α → List α) (mark : Nat) (old : α → Nat) (start : α)
    (space new stack : List α) (marks : α → Nat) : Prop where
  nodup : new.Nodup
  inside : new ⊆ space
  waiting : stack ⊆ new
  root : start ∈ new
  fresh : ∀ x ∈ new, old x = 0 ∧ marks x = mark ∧ Way next old start x
  kept : ∀ x, x ∉ new → marks x = old x
  settled : ∀ x ∈ new, x ∈ stack ∨ ∀ y ∈ next x, marks y ≠ 0

variable {next : α → List α} {mark : Nat} {old marks : α → Nat} {start x : α}
  {space new stack : List α}

theorem spread_spec (hmark : mark ≠ 0) (ys : List α)
    (h : Spreading next mark old start space new (x :: stack) marks)
    (hys : ∀ y ∈ ys, y ∈ next x ∧ y ∈ space) :
    ∃ new', Spreading next mark old start space new' (x :: (ys.foldl (touch mark) (stack, marks)).1)
        (ys.foldl (touch mark) (stack, marks)).2 ∧
      (∀ y ∈ ys, (ys.foldl (touch mark) (stack, marks)).2 y ≠ 0) ∧
      (∀ y, marks y ≠ 0 → (ys.foldl (touch mark) (stack, marks)).2 y ≠ 0) ∧
      (ys.foldl (touch mark) (stack, marks)).1.length + new.length =
        stack.length + new'.length := by
  induction ys generalizing new stack marks with
  | nil => exact ⟨new, h, fun y hy => absurd hy List.not_mem_nil, fun _ hy => hy, rfl⟩
  | cons y ys ih =>
    obtain ⟨hy, hspace⟩ := hys y List.mem_cons_self
    have hys' : ∀ z ∈ ys, z ∈ next x ∧ z ∈ space := fun z hz => hys z (List.mem_cons_of_mem y hz)
    rw [List.foldl_cons, touch]
    by_cases hzero : marks y = 0
    · rw [if_pos hzero]
      have hx := h.fresh x (h.waiting List.mem_cons_self)
      have hnot : y ∉ new := fun hmem => hmark ((h.fresh y hmem).2.1.symm.trans hzero)
      have hold : old y = 0 := (h.kept y hnot).symm.trans hzero
      have hgrown : Spreading next mark old start space (y :: new) (x :: y :: stack)
          (Function.update marks y mark) := by
        refine ⟨List.nodup_cons.2 ⟨hnot, h.nodup⟩, List.cons_subset.2 ⟨hspace, h.inside⟩, ?_,
          List.mem_cons_of_mem y h.root, ?_, ?_, ?_⟩
        · intro z hz
          rcases List.mem_cons.1 hz with rfl | hz
          · exact List.mem_cons_of_mem y (h.waiting List.mem_cons_self)
          · rcases List.mem_cons.1 hz with rfl | hz
            · exact List.mem_cons_self
            · exact List.mem_cons_of_mem y (h.waiting (List.mem_cons_of_mem x hz))
        · intro z hz
          rcases List.mem_cons.1 hz with rfl | hz
          · exact ⟨hold, Function.update_self _ _ _, hx.2.2.tail ⟨hy, hold⟩⟩
          · rw [Function.update_of_ne (ne_of_mem_of_not_mem hz hnot)]
            exact h.fresh z hz
        · intro z hz
          rw [List.mem_cons, not_or] at hz
          rw [Function.update_of_ne hz.1]
          exact h.kept z hz.2
        · intro z hz
          rcases List.mem_cons.1 hz with rfl | hz
          · exact Or.inl (List.mem_cons_of_mem x List.mem_cons_self)
          · rcases h.settled z hz with hwait | hdone
            · refine Or.inl ?_
              rcases List.mem_cons.1 hwait with rfl | hwait
              · exact List.mem_cons_self
              · exact List.mem_cons_of_mem x (List.mem_cons_of_mem y hwait)
            · refine Or.inr fun w hw => ?_
              by_cases hwy : w = y
              · rw [hwy, Function.update_self]
                exact hmark
              · rw [Function.update_of_ne hwy]
                exact hdone w hw
      obtain ⟨new', hspread, hall, hkeep, hlen⟩ := ih hgrown hys'
      have hself : Function.update marks y mark y ≠ 0 := by
        rw [Function.update_self]
        exact hmark
      refine ⟨new', hspread, fun z hz => ?_, fun z hz => hkeep z ?_, ?_⟩
      · rcases List.mem_cons.1 hz with rfl | hz
        · exact hkeep z hself
        · exact hall z hz
      · by_cases hzy : z = y
        · rw [hzy]
          exact hself
        · rw [Function.update_of_ne hzy]
          exact hz
      · simp only [List.length_cons] at hlen ⊢
        omega
    · rw [if_neg hzero]
      obtain ⟨new', hspread, hall, hkeep, hlen⟩ := ih h hys'
      refine ⟨new', hspread, fun z hz => ?_, hkeep, hlen⟩
      rcases List.mem_cons.1 hz with rfl | hz
      · exact hkeep z hzero
      · exact hall z hz

omit [DecidableEq α] in
theorem Spreading.complete (h : Spreading next mark old start space new [] marks)
    (hway : Way next old start x) : x ∈ new := by
  induction hway with
  | refl => exact h.root
  | tail _ hstep ih =>
    apply Classical.byContradiction
    intro hnot
    have hmarked := ((h.settled _ ih).resolve_left List.not_mem_nil) _ hstep.1
    rw [h.kept _ hnot] at hmarked
    exact hmarked hstep.2

theorem flood_spec (hmark : mark ≠ 0) (hclosed : ∀ x ∈ space, next x ⊆ space) (rounds : Nat)
    (h : Spreading next mark old start space new stack marks)
    (hrounds : space.length + stack.length < rounds + new.length) :
    ∃ new', Spreading next mark old start space new' [] (flood next mark rounds stack marks) := by
  induction rounds generalizing new stack marks with
  | zero =>
    have hle : new.length ≤ space.length := (h.nodup.subperm h.inside).length_le
    omega
  | succ rounds ih =>
    cases stack with
    | nil => exact ⟨new, h⟩
    | cons x stack =>
      have hx : x ∈ new := h.waiting List.mem_cons_self
      obtain ⟨new', hspread, hall, -, hlen⟩ := spread_spec hmark (next x) h fun y hy =>
        ⟨hy, hclosed x (h.inside hx) hy⟩
      have hpopped : Spreading next mark old start space new'
          ((next x).foldl (touch mark) (stack, marks)).1
          ((next x).foldl (touch mark) (stack, marks)).2 := by
        refine ⟨hspread.nodup, hspread.inside,
          fun y hy => hspread.waiting (List.mem_cons_of_mem x hy), hspread.root, hspread.fresh,
          hspread.kept, fun y hy => ?_⟩
        rcases hspread.settled y hy with hwait | hdone
        · rcases List.mem_cons.1 hwait with rfl | hwait
          · exact Or.inr hall
          · exact Or.inl hwait
        · exact Or.inr hdone
      rw [flood]
      apply ih hpopped
      rw [List.length_cons] at hrounds
      omega

theorem flood_iff (hmark : mark ≠ 0) (hclosed : ∀ x ∈ space, next x ⊆ space)
    (hstart : start ∈ space) (hzero : old start = 0) {rounds : Nat}
    (hrounds : space.length < rounds) :
    let marks' := flood next mark rounds [start] (Function.update old start mark)
    (∀ x, Way next old start x → old x = 0 ∧ marks' x = mark) ∧
      ∀ x, ¬ Way next old start x → marks' x = old x := by
  have hinit : Spreading next mark old start space [start] [start]
      (Function.update old start mark) := by
    refine ⟨List.nodup_singleton start, ?_, List.Subset.refl _, List.mem_singleton_self start, ?_,
      ?_, fun x hx => Or.inl hx⟩
    · intro x hx
      rwa [List.mem_singleton.1 hx]
    · intro x hx
      rw [List.mem_singleton.1 hx]
      exact ⟨hzero, Function.update_self _ _ _, ReflTransGen.refl⟩
    · intro x hx
      exact Function.update_of_ne (fun heq => hx (List.mem_singleton.2 heq)) _ _
  obtain ⟨new, h⟩ := flood_spec hmark hclosed rounds hinit (by simpa using hrounds)
  constructor
  · intro x hway
    obtain ⟨hold, hmarked, -⟩ := h.fresh x (h.complete hway)
    exact ⟨hold, hmarked⟩
  · intro x hno
    exact h.kept x fun hmem => hno (h.fresh x hmem).2.2

end Flood

section Sweep

variable [DecidableEq α]

/-- Each vertex of a list that has no mark yet floods its class; the class lists the marked `ids`. -/
def sweep (next : α → List α) (rounds : Nat) (ids : List α) : List α → Nat → (α → Nat) →
    List (List α)
  | [], _, _ => []
  | x :: xs, count, marks =>
    if marks x ≠ 0 then sweep next rounds ids xs count marks
    else
      let marks' := flood next (count + 1) rounds [x] (Function.update marks x (count + 1))
      ids.filter (fun y => marks' y == count + 1) :: sweep next rounds ids xs (count + 1) marks'

/-- The members of the class of `x` among the `ids`, in their order. -/
structure IsClass (E : α → α → Prop) (ids : List α) (x : α) (c : List α) : Prop where
  order : c.Sublist ids
  members : ∀ y, y ∈ c ↔ y ∈ ids ∧ E x y

/-- The order in which a sweep takes the vertices keeps its floods inside the classes. -/
structure Sweepable (next : α → List α) (E : α → α → Prop) (order : List α) : Prop where
  refl : ∀ x ∈ order, E x x
  symm : ∀ x y, E x y → E y x
  trans : ∀ x y z, E x y → E y z → E x z
  inside : ∀ done x todo, order = done ++ x :: todo → (∀ d ∈ done, ¬ E d x) →
    ∀ y, ReflTransGen (fun a b => b ∈ next a ∧ ∀ d ∈ done, ¬ E d b) x y → E x y
  across : ∀ x ∈ order, ∀ y, E x y → ReflTransGen (fun a b => b ∈ next a ∧ E x b) x y

/-- Lists that are classes, different ones, of vertices of one list and none of another. -/
structure Classes (E : α → α → Prop) (ids done todo : List α) (cs : List (List α)) : Prop where
  each : ∀ c ∈ cs, ∃ x ∈ todo, IsClass E ids x c ∧ ∀ d ∈ done, ¬ E d x
  cover : ∀ x ∈ todo, (∃ d ∈ done, E d x) ∨ ∃ c ∈ cs, IsClass E ids x c
  apart : cs.Pairwise fun c c' => ∀ y ∈ c, y ∉ c'

variable {next : α → List α} {E : α → α → Prop} {ids order space : List α}

omit [DecidableEq α] in
theorem IsClass.of_equiv {x x' : α} {c : List α} (h : IsClass E ids x c)
    (hequiv : ∀ y, E x y ↔ E x' y) : IsClass E ids x' c :=
  ⟨h.order, fun y => by rw [h.members, hequiv]⟩

omit [DecidableEq α] in
theorem of_snoc {done : List α} {x y : α} (h : ∃ d ∈ done ++ [x], E d y) :
    (∃ d ∈ done, E d y) ∨ E x y := by
  obtain ⟨d, hd, hdy⟩ := h
  rcases List.mem_append.1 hd with hd | hd
  · exact .inl ⟨d, hd, hdy⟩
  · rw [List.mem_singleton.1 hd] at hdy
    exact .inr hdy

omit [DecidableEq α] in
theorem to_snoc {done : List α} {y : α} (x : α) (h : ∃ d ∈ done, E d y) :
    ∃ d ∈ done ++ [x], E d y := by
  obtain ⟨d, hd, hdy⟩ := h
  exact ⟨d, List.mem_append_left _ hd, hdy⟩

theorem sweep_spec (h : Sweepable next E order) (hclosed : ∀ x ∈ space, next x ⊆ space)
    (horder : order ⊆ space) {rounds : Nat} (hrounds : space.length < rounds)
    (todo done : List α) (count : Nat) (marks : α → Nat) (hsplit : order = done ++ todo)
    (hcount : ∀ y, marks y ≤ count) (hmarks : ∀ y, marks y ≠ 0 ↔ ∃ d ∈ done, E d y) :
    Classes E ids done todo (sweep next rounds ids todo count marks) := by
  induction todo generalizing done count marks with
  | nil =>
    exact ⟨fun c hc => absurd hc List.not_mem_nil, fun x hx => absurd hx List.not_mem_nil,
      List.Pairwise.nil⟩
  | cons x xs ih =>
    have hsplit' : order = (done ++ [x]) ++ xs := by rw [hsplit, List.append_assoc]; rfl
    have hx : x ∈ order := by
      rw [hsplit]
      exact List.mem_append_right done List.mem_cons_self
    rw [sweep]
    by_cases hmarked : marks x ≠ 0
    · rw [if_pos hmarked]
      obtain ⟨d, hd, hdx⟩ := (hmarks x).1 hmarked
      have hmarks' : ∀ y, marks y ≠ 0 ↔ ∃ d ∈ done ++ [x], E d y := by
        intro y
        rw [hmarks]
        refine ⟨to_snoc x, fun hy => ?_⟩
        exact (of_snoc hy).elim id fun hxy => ⟨d, hd, h.trans d x y hdx hxy⟩
      obtain ⟨heach, hcover, hapart⟩ := ih (done ++ [x]) count marks hsplit' hcount hmarks'
      refine ⟨fun c hc => ?_, fun z hz => ?_, hapart⟩
      · obtain ⟨z, hz, hclass, hnone⟩ := heach c hc
        exact ⟨z, List.mem_cons_of_mem x hz, hclass,
          fun e he => hnone e (List.mem_append_left _ he)⟩
      · rcases List.mem_cons.1 hz with rfl | hz
        · exact Or.inl ⟨d, hd, hdx⟩
        · rcases hcover z hz with hold | hnew
          · exact .inl ((of_snoc hold).elim id fun hxz => ⟨d, hd, h.trans d x z hdx hxz⟩)
          · exact Or.inr hnew
    · rw [if_neg hmarked]
      have hzero : marks x = 0 := by simpa using hmarked
      have hnone : ∀ d ∈ done, ¬ E d x := fun d hd hdx => (hmarks x).2 ⟨d, hd, hdx⟩ hzero
      obtain ⟨hreached, hkept⟩ := flood_iff (Nat.succ_ne_zero count : count + 1 ≠ 0) hclosed
        (horder hx) hzero hrounds
      -- the flood reaches the class
      have hway : ∀ y, Way next marks x y ↔ E x y := by
        intro y
        constructor
        · intro hway
          apply h.inside done x xs hsplit hnone y
          refine ReflTransGen.mono ?_ x y hway
          intro a b hab
          refine ⟨hab.1, fun d hd hdb => (hmarks b).2 ⟨d, hd, hdb⟩ hab.2⟩
        · intro hxy
          refine ReflTransGen.mono ?_ x y (h.across x hx y hxy)
          intro a b hab
          refine ⟨hab.1, ?_⟩
          apply Classical.byContradiction
          intro hb
          obtain ⟨d, hd, hdb⟩ := (hmarks b).1 hb
          exact hnone d hd (h.trans d b x hdb (h.symm x b hab.2))
      generalize flood next (count + 1) rounds [x] (Function.update marks x (count + 1)) = marks'
        at hreached hkept ⊢
      have hclassMark : ∀ y, marks' y = count + 1 ↔ E x y := by
        intro y
        rw [← hway]
        constructor
        · intro hy
          apply Classical.byContradiction
          intro hno
          rw [hkept y hno] at hy
          have hle := hcount y
          omega
        · exact fun hy => (hreached y hy).2
      have hcount' : ∀ y, marks' y ≤ count + 1 := by
        intro y
        by_cases hy : Way next marks x y
        · exact Nat.le_of_eq (hreached y hy).2
        · rw [hkept y hy]
          exact Nat.le_succ_of_le (hcount y)
      have hmarks' : ∀ y, marks' y ≠ 0 ↔ ∃ d ∈ done ++ [x], E d y := by
        intro y
        by_cases hy : Way next marks x y
        · rw [(hreached y hy).2]
          refine ⟨fun _ => ⟨x, ?_, (hway y).1 hy⟩, fun _ => Nat.succ_ne_zero count⟩
          exact List.mem_append_right done (List.mem_singleton_self x)
        · rw [hkept y hy, hmarks]
          refine ⟨to_snoc x, fun hnew => ?_⟩
          exact (of_snoc hnew).elim id fun hxy => absurd ((hway y).2 hxy) hy
      have hclass : IsClass E ids x (ids.filter fun y => marks' y == count + 1) := by
        refine ⟨List.filter_sublist, fun y => ?_⟩
        rw [List.mem_filter, beq_iff_eq, hclassMark]
      obtain ⟨heach, hcover, hapart⟩ := ih (done ++ [x]) (count + 1) marks' hsplit' hcount' hmarks'
      refine ⟨fun c hc => ?_, fun z hz => ?_, List.pairwise_cons.2 ⟨fun c hc y hy hy' => ?_, hapart⟩⟩
      · rcases List.mem_cons.1 hc with rfl | hc
        · exact ⟨x, List.mem_cons_self, hclass, hnone⟩
        · obtain ⟨z, hz, hclass', hnone'⟩ := heach c hc
          exact ⟨z, List.mem_cons_of_mem x hz, hclass',
            fun e he => hnone' e (List.mem_append_left _ he)⟩
      · rcases List.mem_cons.1 hz with rfl | hz
        · exact Or.inr ⟨_, List.mem_cons_self, hclass⟩
        · rcases hcover z hz with hold | hnew
          · refine (of_snoc hold).imp id fun hxz => ?_
            refine ⟨_, List.mem_cons_self, hclass.of_equiv fun y => ?_⟩
            exact ⟨fun hy => h.trans z x y (h.symm x z hxz) hy, fun hy => h.trans x z y hxz hy⟩
          · obtain ⟨c, hc, hclass'⟩ := hnew
            exact Or.inr ⟨c, List.mem_cons_of_mem _ hc, hclass'⟩
      · obtain ⟨z, -, hclass', hnone'⟩ := heach c hc
        have hxy := ((hclass.members y).1 hy).2
        have hzy := ((hclass'.members y).1 hy').2
        refine hnone' x (List.mem_append_right done (List.mem_singleton_self x)) ?_
        exact h.trans x y z hxy (h.symm z y hzy)

end Sweep

end XPerl.Framework.Flooding
