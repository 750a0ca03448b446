import Mathlib.Data.List.Nodup

namespace XPerl.Framework.BucketChains

/-- Elements reached from identifier `x`. Zero ends a chain, `i+1` names element `i`, whose link is
cell `n+i`. -/
def Chain (cell : Nat → Nat) (n : Nat) : Nat → List Nat → Prop
  | x, [] => x = 0
  | x, i :: l => x = i + 1 ∧ Chain cell n (cell (n + i)) l

/-- The first `n` cells head one chain per bucket, which lists the elements whose home it is once
each. -/
def Indexes (cell : Nat → Nat) (n : Nat) (home : Nat → Option Nat) : Prop :=
  ∀ b < n, ∃ l, Chain cell n (cell b) l ∧ l.Nodup ∧ ∀ i, i ∈ l ↔ home i = some b

/-- Cell that holds the identifier following the prefix `l` of a chain headed at `pos`. -/
def link (n pos : Nat) (l : List Nat) : Nat := (l.getLast?.map (n + ·)).getD pos

/-- Follow a chain from the cell `pos`. The outer `none` means that the fuel ran out. -/
def walk (cell : Nat → Nat) (n : Nat) (test : Nat → Bool) :
    Nat → Nat → Option (Option (Nat × Nat))
  | 0, _ => none
  | fuel + 1, pos =>
    if cell pos = 0 then some none
    else if test (cell pos - 1) then some (some (cell pos - 1, pos))
    else walk cell n test fuel (n - 1 + cell pos)

variable {cell : Nat → Nat} {n pos : Nat} {l l' : List Nat}

variable {x b i : Nat} {home : Nat → Option Nat}

theorem chain_congr {cell' : Nat → Nat}
    (h : Chain cell n x l) (he : ∀ i ∈ l, cell' (n + i) = cell (n + i)) :
    Chain cell' n x l := by
  induction l generalizing x with
  | nil => exact h
  | cons i l ih =>
    refine ⟨h.1, ?_⟩
    rw [he i (by simp)]
    exact ih h.2 (fun j hj => he j (by simp [hj]))

theorem chain_unique
    (h : Chain cell n x l) (h' : Chain cell n x l') : l = l' := by
  induction l generalizing x l' with
  | nil =>
    cases l' with
    | nil => rfl
    | cons j l' =>
      have hx : x = 0 := h
      have hx' : x = j + 1 := h'.1
      omega
  | cons i l ih =>
    cases l' with
    | nil =>
      have hx : x = 0 := h'
      have hx' : x = i + 1 := h.1
      omega
    | cons j l' =>
      obtain ⟨hi, ht⟩ := h
      obtain ⟨hj, ht'⟩ := h'
      have hij : i = j := by omega
      subst hij
      rw [ih ht ht']

theorem link_cons (n pos i : Nat) (l : List Nat) :
    link n pos (i :: l) = link n (n + i) l := by
  cases hl : l.getLast? with
  | none =>
    have h : l = [] := List.getLast?_eq_none_iff.mp hl
    simp [link, h]
  | some j => simp [link, List.getLast?_cons, hl]

theorem link_eq (n pos : Nat) (l : List Nat) :
    l = [] ∧ link n pos l = pos ∨ ∃ j ∈ l, link n pos l = n + j := by
  cases hl : l.getLast? with
  | none => exact Or.inl ⟨List.getLast?_eq_none_iff.mp hl, by simp [link, hl]⟩
  | some j => exact Or.inr ⟨j, List.mem_of_getLast? hl, by simp [link, hl]⟩

theorem chain_link
    (h : Chain cell n (cell pos) (l ++ l')) : Chain cell n (cell (link n pos l)) l' := by
  induction l generalizing pos with
  | nil => simpa [link] using h
  | cons i l ih =>
    rw [link_cons]
    exact ih h.2

theorem chain_redirect {l'' : List Nat} {y : Nat}
    (h : Chain cell n (cell pos) (l ++ l')) (hnd : l.Nodup)
    (hpos : ∀ j ∈ l, pos ≠ n + j)
    (hy : Chain (Function.update cell (link n pos l) y) n y l'') :
    Chain (Function.update cell (link n pos l) y) n
      (Function.update cell (link n pos l) y pos) (l ++ l'') := by
  induction l generalizing pos with
  | nil => simpa [link] using hy
  | cons i l ih =>
    obtain ⟨hi, ht⟩ := h
    obtain ⟨hil, hl⟩ := List.nodup_cons.mp hnd
    rw [link_cons] at hy ⊢
    have hhead : Function.update cell (link n (n + i) l) y pos = cell pos := by
      apply Function.update_of_ne
      rcases link_eq n (n + i) l with ⟨_, hk⟩ | ⟨j, hj, hk⟩
      · rw [hk]; exact hpos i (by simp)
      · rw [hk]; exact hpos j (by simp [hj])
    rw [hhead]
    refine ⟨hi, ih ht hl ?_ hy⟩
    intro j hj he
    have : i = j := by omega
    exact hil (this ▸ hj)

theorem indexes_empty (n : Nat) : Indexes (fun _ => 0) n (fun _ => none) := by
  intro b _
  exact ⟨[], rfl, List.nodup_nil, by simp⟩

theorem indexes_push
    (h : Indexes cell n home) (hb : b < n) (hi : home i = none) :
    Indexes (Function.update (Function.update cell (n + i) (cell b)) b (i + 1)) n
      (Function.update home i (some b)) := by
  intro b' hb'
  obtain ⟨l, hc, hnd, hmem⟩ := h b' hb'
  have hil : i ∉ l := by rw [hmem i, hi]; simp
  have hframe : Chain (Function.update (Function.update cell (n + i) (cell b)) b (i + 1)) n
      (cell b') l := by
    refine chain_congr hc (fun j hj => ?_)
    have hji : j ≠ i := fun he => hil (he ▸ hj)
    rw [Function.update_of_ne (by omega), Function.update_of_ne (by omega)]
  by_cases he : b' = b
  · subst he
    refine ⟨i :: l, ⟨Function.update_self .., ?_⟩, List.nodup_cons.mpr ⟨hil, hnd⟩, ?_⟩
    · rw [Function.update_of_ne (by omega), Function.update_self]
      exact hframe
    · intro j
      by_cases hj : j = i
      · subst hj; simp
      · simp [hj, hmem j]
  · refine ⟨l, ?_, hnd, ?_⟩
    · rw [Function.update_of_ne he, Function.update_of_ne (by omega)]
      exact hframe
    · intro j
      by_cases hj : j = i
      · subst hj
        simp [hil, Ne.symm he]
      · simp [hj, hmem j]

theorem indexes_unlink
    {l₁ l₂ : List Nat} (h : Indexes cell n home) (hb : b < n)
    (hc : Chain cell n (cell b) (l₁ ++ i :: l₂)) :
    Indexes (Function.update (Function.update cell (link n b l₁) (cell (n + i))) (n + i) 0) n
      (Function.update home i none) := by
  obtain ⟨l, hc', hnd, hmem⟩ := h b hb
  obtain rfl := chain_unique hc hc'
  obtain ⟨hnd₁, hnd₂, hdis⟩ := List.nodup_append.mp hnd
  have hi₁ : i ∉ l₁ := fun hm => hdis i hm i (by simp) rfl
  obtain ⟨hi₂, hnd₂'⟩ := List.nodup_cons.mp hnd₂
  have hlink : link n b l₁ ≠ n + i := by
    rcases link_eq n b l₁ with ⟨_, hk⟩ | ⟨j, hj, hk⟩
    · omega
    · intro he
      have : j = i := by omega
      exact hi₁ (this ▸ hj)
  have hclear : ∀ (cell' : Nat → Nat) (x : Nat) (m : List Nat), i ∉ m → Chain cell' n x m →
      Chain (Function.update cell' (n + i) 0) n x m := by
    intro cell' x m hm hx
    refine chain_congr hx (fun j hj => Function.update_of_ne ?_ _ _)
    intro he
    have : j = i := by omega
    exact hm (this ▸ hj)
  intro b' hb'
  by_cases he : b' = b
  · subst he
    refine ⟨l₁ ++ l₂, ?_, ?_, ?_⟩
    · rw [Function.update_of_ne (by omega)]
      refine hclear _ _ _ (by simp [hi₁, hi₂]) ?_
      refine chain_redirect hc hnd₁ (fun j _ => by omega) ?_
      refine chain_congr (chain_link hc).2 (fun j hj => Function.update_of_ne ?_ _ _)
      rcases link_eq n b' l₁ with ⟨_, hk⟩ | ⟨k, hk', hk⟩
      · omega
      · intro he
        exact hdis k hk' j (by simp [hj]) (by omega)
    · exact List.nodup_append.mpr ⟨hnd₁, hnd₂', fun a ha c hcm => hdis a ha c (by simp [hcm])⟩
    · intro j
      by_cases hj : j = i
      · subst hj; simp [hi₁, hi₂]
      · rw [Function.update_of_ne hj, ← hmem j]; simp [hj]
  · obtain ⟨l', hl', hnd', hmem'⟩ := h b' hb'
    have hil' : i ∉ l' := by
      intro hm
      have h1 := (hmem' i).mp hm
      have h2 := (hmem i).mp (by simp)
      rw [h1] at h2
      exact he (by simpa using h2)
    refine ⟨l', ?_, hnd', ?_⟩
    · have hb'' : b' ≠ link n b l₁ := by
        rcases link_eq n b l₁ with ⟨_, hk⟩ | ⟨j, _, hk⟩ <;> omega
      rw [Function.update_of_ne (by omega), Function.update_of_ne hb'']
      refine hclear _ _ _ hil' (chain_congr hl' (fun j hj => Function.update_of_ne ?_ _ _))
      rcases link_eq n b l₁ with ⟨_, hk⟩ | ⟨k, hk', hk⟩
      · omega
      · intro hjk
        have hkj : k = j := by omega
        have h1 := (hmem' j).mp hj
        have h2 := (hmem j).mp (by rw [← hkj]; simp [hk'])
        rw [h1] at h2
        exact he (by simpa using h2)
    · intro j
      by_cases hj : j = i
      · subst hj; simp [hil']
      · rw [Function.update_of_ne hj, ← hmem' j]

theorem walk_eq (hn : 0 < n) (test : Nat → Bool) (fuel : Nat) (h : Chain cell n (cell pos) l)
    (hf : l.length < fuel) :
    (∀ i ∈ l, test i = false) ∧ walk cell n test fuel pos = some none ∨
    ∃ l₁ i l₂, l = l₁ ++ i :: l₂ ∧ (∀ j ∈ l₁, test j = false) ∧ test i = true ∧
      walk cell n test fuel pos = some (some (i, link n pos l₁)) := by
  induction l generalizing fuel pos with
  | nil =>
    obtain ⟨fuel, rfl⟩ : ∃ f, fuel = f + 1 := ⟨fuel - 1, by simp at hf; omega⟩
    have hz : cell pos = 0 := h
    exact Or.inl ⟨by simp, by simp [walk, hz]⟩
  | cons i l ih =>
    obtain ⟨fuel, rfl⟩ : ∃ f, fuel = f + 1 := ⟨fuel - 1, by simp at hf; omega⟩
    obtain ⟨hi, ht⟩ := h
    have hnext : n - 1 + (i + 1) = n + i := by omega
    cases htest : test i with
    | true =>
      exact Or.inr ⟨[], i, l, rfl, by simp, htest, by simp [walk, hi, htest, link]⟩
    | false =>
      have hstep : walk cell n test (fuel + 1) pos = walk cell n test fuel (n + i) := by
        simp [walk, hi, htest, hnext]
      rw [hstep]
      rcases ih fuel ht (by simpa using hf) with ⟨hnone, hw⟩ | ⟨l₁, j, l₂, rfl, h₁, hj, hw⟩
      · exact Or.inl ⟨by simpa [htest] using hnone, hw⟩
      · refine Or.inr ⟨i :: l₁, j, l₂, rfl, by simpa [htest] using h₁, hj, ?_⟩
        rw [link_cons]
        exact hw

end XPerl.Framework.BucketChains
