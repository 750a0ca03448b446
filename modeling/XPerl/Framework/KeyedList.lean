import Mathlib.Data.List.Nodup

/-! Lists of elements with distinct keys: lookup, update and removal by key. -/

namespace XPerl.Framework.KeyedList

variable {α γ : Type} [DecidableEq γ] {key : α → γ} {l : List α} {c : γ} {f : α → α}

def find (key : α → γ) (l : List α) (c : γ) : Option α := l.find? fun a => decide (key a = c)

/-- Change the element with a key. -/
def update (key : α → γ) (l : List α) (c : γ) (f : α → α) : List α :=
  l.map fun a => if key a = c then f a else a

def erase (key : α → γ) (l : List α) (c : γ) : List α := l.filter fun a => decide (key a ≠ c)

theorem find_eq_none : find key l c = none ↔ ∀ a ∈ l, key a ≠ c := by
  simp [find]

variable {a : α}

theorem key_of_find (h : find key l c = some a) : key a = c := by
  simpa using List.find?_some h

theorem mem_of_find (h : find key l c = some a) : a ∈ l := List.mem_of_find?_eq_some h

theorem find_eq_some (hl : (l.map key).Nodup) (ha : a ∈ l) (hc : key a = c) :
    find key l c = some a := by
  cases h : find key l c with
  | none => exact absurd hc (find_eq_none.mp h a ha)
  | some b =>
    have hb := (key_of_find h).trans hc.symm
    rw [List.inj_on_of_nodup_map hl (mem_of_find h) ha hb]

theorem split (hl : (l.map key).Nodup) (ha : a ∈ l) (hc : key a = c) :
    ∃ l₁ l₂, l = l₁ ++ a :: l₂ ∧ erase key l c = l₁ ++ l₂ ∧
      ∀ f, update key l c f = l₁ ++ f a :: l₂ := by
  obtain ⟨l₁, l₂, rfl⟩ := List.append_of_mem ha
  have hne : ∀ b ∈ l₁ ++ l₂, key b ≠ c := by
    intro b hb hbc
    have hnd := (List.nodup_middle.mp (by simpa using hl) : (key a :: (l₁.map key ++ l₂.map key)).Nodup)
    refine (List.nodup_cons.mp hnd).1 ?_
    rw [← List.map_append, hc, ← hbc]
    exact List.mem_map_of_mem hb
  have h₁ : ∀ b ∈ l₁, key b ≠ c := fun b hb => hne b (by simp [hb])
  have h₂ : ∀ b ∈ l₂, key b ≠ c := fun b hb => hne b (by simp [hb])
  have hmap : ∀ (m : List α) (f : α → α), (∀ b ∈ m, key b ≠ c) →
      m.map (fun b => if key b = c then f b else b) = m := by
    intro m f hm
    conv_rhs => rw [← List.map_id m]
    exact List.map_congr_left fun b hb => by simp [hm b hb]
  have hfilter : ∀ m : List α, (∀ b ∈ m, key b ≠ c) →
      m.filter (fun b => decide (key b ≠ c)) = m :=
    fun m hm => List.filter_eq_self.mpr fun b hb => decide_eq_true (hm b hb)
  refine ⟨l₁, l₂, rfl, ?_, fun f => ?_⟩
  · unfold erase
    rw [List.filter_append, List.filter_cons, hfilter l₁ h₁, hfilter l₂ h₂]
    simp [hc]
  · unfold update
    rw [List.map_append, List.map_cons, hmap l₁ f h₁, hmap l₂ f h₂]
    simp [hc]

theorem find_update (key : α → γ) (hf : ∀ a ∈ l, key a = c → key (f a) = c) (c' : γ) :
    find key (update key l c f) c' =
      if c' = c then (find key l c).map f else find key l c' := by
  induction l with
  | nil => simp [find, update]
  | cons a l ih =>
    have ih := ih fun b hb => hf b (by simp [hb])
    have hfa := hf a (by simp)
    simp only [find, update] at ih
    simp only [find, update, List.map_cons, List.find?_cons]
    by_cases ha : key a = c
    · by_cases hc : c' = c
      · simp [ha, hc, hfa ha]
      · have hne : ¬c = c' := fun h => hc h.symm
        simp [ha, hfa ha, hc, hne, ih]
    · by_cases hc : c' = c
      · subst hc
        simp [ha, ih]
      · simp [ha, hc, ih]

theorem find_erase (key : α → γ) (c' : γ) :
    find key (erase key l c) c' = if c' = c then none else find key l c' := by
  unfold find erase
  rw [List.find?_filter]
  split
  · rename_i h
    subst h
    simp
  · rename_i h
    congr 1
    funext a
    by_cases ha : key a = c'
    · simp [ha, h]
    · simp [ha]

theorem find_append (key : α → γ) (c' : γ) :
    find key (l ++ [a]) c' = (find key l c').or (if key a = c' then some a else none) := by
  unfold find
  rw [List.find?_append]
  by_cases h : key a = c' <;> simp [h]

theorem erase_update (hf : ∀ a ∈ l, key a = c → key (f a) = c) :
    erase key (update key l c f) c = erase key l c := by
  induction l with
  | nil => rfl
  | cons a l ih =>
    have ih := ih fun b hb => hf b (by simp [hb])
    have hfa := hf a (by simp)
    simp only [erase, update] at ih
    simp only [erase, update, List.map_cons, List.filter_cons]
    by_cases h : key a = c
    · simpa [h, hfa h] using ih
    · simpa [h] using ih

theorem erase_head (hl : ((a :: l).map key).Nodup) : erase key (a :: l) (key a) = l := by
  have hne : ∀ b ∈ l, key b ≠ key a := by
    intro b hb hba
    rw [List.map_cons, List.nodup_cons] at hl
    exact hl.1 (hba ▸ List.mem_map_of_mem hb)
  simp only [erase, List.filter_cons, ne_eq, not_true_eq_false, decide_false, Bool.false_eq_true,
    if_false]
  exact List.filter_eq_self.mpr fun b hb => decide_eq_true (hne b hb)

theorem nodup_erase (hl : (l.map key).Nodup) : ((erase key l c).map key).Nodup :=
  hl.sublist (List.filter_sublist.map key)

theorem nodup_append (hl : (l.map key).Nodup) (ha : find key l (key a) = none) :
    ((l ++ [a]).map key).Nodup := by
  rw [List.map_append, List.nodup_append]
  refine ⟨hl, by simp, fun x hx y hy => ?_⟩
  obtain ⟨b, hb, rfl⟩ := List.mem_map.mp hx
  obtain rfl : y = key a := by simpa using hy
  exact find_eq_none.mp ha b hb

end XPerl.Framework.KeyedList
