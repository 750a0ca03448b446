import Mathlib.Data.List.Nodup
import Mathlib.Data.List.Perm.Subperm

/-! Open addressing with linear probing, tombstones and tombstone reuse. -/

namespace XPerl.Framework.ProbeTable

inductive Cell (α : Type) where
  | empty
  | deleted
  | full (a : α)
  deriving DecidableEq, Repr

namespace Cell

variable {α : Type}

def isFree : Cell α → Bool
  | full _ => false
  | _ => true

def isDeleted : Cell α → Bool
  | deleted => true
  | _ => false

def content : Cell α → Option α
  | full a => some a
  | _ => none

end Cell

variable {α : Type} {cells : List (Cell α)} {home : α → Option Nat}

def cellAt (cells : List (Cell α)) (pos : Nat) : Cell α := cells.getD pos .empty

def probe (cells : List (Cell α)) (start d : Nat) : Nat := (start + d) % cells.length

/-- Probe loop: the element found and its slot, or the slot where a missing one could be inserted.
-/
def findFrom (cells : List (Cell α)) (test : α → Bool) :
    Nat → Nat → Option Nat → Option α × Option Nat
  | 0, _, saved => (none, saved)
  | fuel + 1, pos, saved =>
    match cellAt cells pos with
    | .empty => (none, some (saved.getD pos))
    | .deleted => findFrom cells test fuel ((pos + 1) % cells.length) (some (saved.getD pos))
    | .full a =>
      if test a then (some a, some pos)
      else findFrom cells test fuel ((pos + 1) % cells.length) saved

def find (cells : List (Cell α)) (test : α → Bool) (start : Nat) : Option α × Option Nat :=
  findFrom cells test cells.length start none

def freeFrom (cells : List (Cell α)) : Nat → Nat → Option Nat
  | 0, _ => none
  | fuel + 1, pos =>
    if (cellAt cells pos).isFree then some pos
    else freeFrom cells fuel ((pos + 1) % cells.length)

def freeSlot (cells : List (Cell α)) (start : Nat) : Option Nat :=
  freeFrom cells cells.length start

/-- Every element with a home is in exactly one slot, reached from its home past no empty slot. -/
structure Index (cells : List (Cell α)) (home : α → Option Nat) : Prop where
  live : ∀ {pos : Nat} {a : α}, cells[pos]? = some (.full a) → home a ≠ none
  inj : ∀ {p q : Nat} {a : α}, cells[p]? = some (.full a) → cells[q]? = some (.full a) → p = q
  path : ∀ {a : α} {h : Nat}, home a = some h → ∃ d < cells.length,
    cells[probe cells h d]? = some (.full a) ∧ ∀ e < d, cells[probe cells h e]? ≠ some .empty

def deletedCount (cells : List (Cell α)) : Nat := cells.countP Cell.isDeleted

def contents (cells : List (Cell α)) : List α := cells.filterMap Cell.content

variable {pos start d : Nat} {test : α → Bool}

theorem cellAt_eq (h : pos < cells.length) : cells[pos]? = some (cellAt cells pos) := by
  simp [cellAt, List.getElem?_eq_getElem h]

theorem probe_zero (h : start < cells.length) : probe cells start 0 = start :=
  Nat.mod_eq_of_lt h

theorem probe_lt (h : start < cells.length) (d : Nat) :
    probe cells start d < cells.length := Nat.mod_lt _ (by omega)

theorem probe_next (start d : Nat) :
    probe cells ((start + 1) % cells.length) d = probe cells start (d + 1) := by
  unfold probe
  rw [Nat.mod_add_mod]
  congr 1
  omega

theorem probe_surj (hs : start < cells.length) (hp : pos < cells.length) :
    ∃ d < cells.length, probe cells start d = pos := by
  by_cases h : start ≤ pos
  · refine ⟨pos - start, by omega, ?_⟩
    unfold probe
    rw [show start + (pos - start) = pos by omega, Nat.mod_eq_of_lt hp]
  · refine ⟨pos + cells.length - start, by omega, ?_⟩
    unfold probe
    rw [show start + (pos + cells.length - start) = pos + cells.length by omega,
      Nat.add_mod_right, Nat.mod_eq_of_lt hp]

theorem findFrom_full {a : α} :
    ∀ {fuel start : Nat} {saved : Option Nat}, start < cells.length → d < fuel →
      cells[probe cells start d]? = some (.full a) → test a = true →
      (∀ e < d, cells[probe cells start e]? ≠ some .empty ∧
        ∀ b, cells[probe cells start e]? = some (.full b) → test b = false) →
      findFrom cells test fuel start saved = (some a, some (probe cells start d)) := by
  induction d with
  | zero =>
    intro fuel start saved hs hf ha ht _
    obtain ⟨fuel, rfl⟩ : ∃ f, fuel = f + 1 := ⟨fuel - 1, by omega⟩
    rw [probe_zero hs] at ha ⊢
    rw [cellAt_eq hs, Option.some.injEq] at ha
    simp [findFrom, ha, ht]
  | succ d ih =>
    intro fuel start saved hs hf ha ht hpath
    obtain ⟨fuel, rfl⟩ : ∃ f, fuel = f + 1 := ⟨fuel - 1, by omega⟩
    have hs' : (start + 1) % cells.length < cells.length := Nat.mod_lt _ (by omega)
    have hnext : ∀ saved, findFrom cells test fuel ((start + 1) % cells.length) saved =
        (some a, some (probe cells start (d + 1))) := by
      intro saved
      rw [← probe_next]
      refine ih hs' (by omega) (by rwa [probe_next]) ht (fun e he => ?_)
      rw [probe_next]
      exact hpath (e + 1) (by omega)
    have h0 := hpath 0 (by omega)
    rw [probe_zero hs, cellAt_eq hs] at h0
    cases hc : cellAt cells start with
    | empty => simp [hc] at h0
    | deleted => simp [findFrom, hc, hnext]
    | full b =>
      have hb : test b = false := h0.2 b (by rw [hc])
      simp [findFrom, hc, hb, hnext]

theorem findFrom_empty :
    ∀ {fuel start : Nat} {saved : Option Nat}, start < cells.length → d < fuel →
      cells[probe cells start d]? = some .empty →
      (∀ e < d, ∀ b, cells[probe cells start e]? = some (.full b) → test b = false) →
      ∃ p, freeFrom cells fuel start = some p ∧
        findFrom cells test fuel start saved = (none, some (saved.getD p)) := by
  induction d with
  | zero =>
    intro fuel start saved hs hf ha _
    obtain ⟨fuel, rfl⟩ : ∃ f, fuel = f + 1 := ⟨fuel - 1, by omega⟩
    rw [probe_zero hs, cellAt_eq hs, Option.some.injEq] at ha
    exact ⟨start, by simp [freeFrom, ha, Cell.isFree], by simp [findFrom, ha]⟩
  | succ d ih =>
    intro fuel start saved hs hf ha hpath
    obtain ⟨fuel, rfl⟩ : ∃ f, fuel = f + 1 := ⟨fuel - 1, by omega⟩
    have hs' : (start + 1) % cells.length < cells.length := Nat.mod_lt _ (by omega)
    have hnext : ∀ saved, ∃ p, freeFrom cells fuel ((start + 1) % cells.length) = some p ∧
        findFrom cells test fuel ((start + 1) % cells.length) saved =
          (none, some (saved.getD p)) := by
      intro saved
      refine ih hs' (by omega) (by rwa [probe_next]) (fun e he b => ?_)
      rw [probe_next]
      exact hpath (e + 1) (by omega) b
    have h0 := hpath 0 (by omega)
    rw [probe_zero hs, cellAt_eq hs] at h0
    cases hc : cellAt cells start with
    | empty => exact ⟨start, by simp [freeFrom, hc, Cell.isFree], by simp [findFrom, hc]⟩
    | deleted =>
      obtain ⟨p, -, hp⟩ := hnext (some (saved.getD start))
      exact ⟨start, by simp [freeFrom, hc, Cell.isFree], by simp [findFrom, hc, hp]⟩
    | full b =>
      obtain ⟨p, hfree, hp⟩ := hnext saved
      have hb : test b = false := h0 b (by rw [hc])
      exact ⟨p, by simp [freeFrom, hc, Cell.isFree, hfree], by simp [findFrom, hc, hb, hp]⟩

theorem freeFrom_spec {fuel : Nat} : ∀ {start p : Nat}, start < cells.length →
    freeFrom cells fuel start = some p →
    ∃ d < fuel, p = probe cells start d ∧ (cellAt cells p).isFree = true ∧
      ∀ e < d, (cellAt cells (probe cells start e)).isFree = false := by
  induction fuel with
  | zero => intro start p _ h; simp [freeFrom] at h
  | succ fuel ih =>
    intro start p hs h
    unfold freeFrom at h
    split at h
    · rename_i hfree
      obtain rfl : start = p := by simpa using h
      exact ⟨0, by omega, (probe_zero hs).symm, hfree, by omega⟩
    · rename_i hfree
      have hs' : (start + 1) % cells.length < cells.length := Nat.mod_lt _ (by omega)
      obtain ⟨d, hd, hp, hpf, hbefore⟩ := ih hs' h
      refine ⟨d + 1, by omega, by rw [hp, probe_next], hpf, fun e he => ?_⟩
      cases e with
      | zero => rw [probe_zero hs]; simpa using hfree
      | succ e => rw [← probe_next]; exact hbefore e (by omega)

section Index

variable (hx : Index cells home)
include hx

variable {test : α → Bool} {a : α} {h p : Nat}

theorem find_some (ha : home a = some h)
    (hs : h < cells.length) (ht : test a = true)
    (hne : ∀ b, home b ≠ none → test b = true → b = a) :
    ∃ pos, cells[pos]? = some (.full a) ∧ find cells test h = (some a, some pos) := by
  obtain ⟨d, hd, hfull, hpath⟩ := hx.path ha
  have hstop : ∃ d < cells.length, cells[probe cells h d]? = some (.full a) ∧
      ∀ e < d, cells[probe cells h e]? ≠ some .empty ∧
        ∀ b, cells[probe cells h e]? = some (.full b) → test b = false := by
    induction d using Nat.strongRecOn with
    | ind d ih =>
      by_cases hbefore : ∃ e < d, cells[probe cells h e]? = some (.full a)
      · obtain ⟨e, he, hea⟩ := hbefore
        exact ih e he (by omega) hea (fun e' he' => hpath e' (by omega))
      · refine ⟨d, hd, hfull, fun e he => ⟨hpath e he, fun b hb => ?_⟩⟩
        by_contra htb
        have hba := hne b (hx.live hb) (by simpa using htb)
        exact hbefore ⟨e, he, hba ▸ hb⟩
  obtain ⟨d, hd, hfull, hpath⟩ := hstop
  exact ⟨_, hfull, findFrom_full hs hd hfull ht hpath⟩

theorem find_none {pos : Nat} (hs : h < cells.length)
    (hroom : cells[pos]? = some .empty) (hne : ∀ b, home b ≠ none → test b = false) :
    ∃ p, freeSlot cells h = some p ∧ find cells test h = (none, some p) := by
  have hpos : pos < cells.length := by
    by_contra hge
    simp [List.getElem?_eq_none (by omega : cells.length ≤ pos)] at hroom
  obtain ⟨d, hd, hdp⟩ := probe_surj hs hpos
  obtain ⟨p, hp, hf⟩ := findFrom_empty hs hd (by rwa [hdp])
    (fun _ _ b hb => hne b (hx.live hb))
  exact ⟨p, hp, hf⟩

theorem index_insert [DecidableEq α] (ha : home a = none)
    (hs : h < cells.length) (hp : freeSlot cells h = some p) :
    Index (cells.set p (.full a)) (Function.update home a (some h)) := by
  obtain ⟨d, hd, hpd, hfree, hbefore⟩ := freeFrom_spec hs hp
  have hplen : p < cells.length := hpd ▸ probe_lt hs d
  have hpc := cellAt_eq hplen
  have hnota : ∀ {q : Nat}, cells[q]? ≠ some (.full a) := fun hq => hx.live hq ha
  have hget : ∀ q, (cells.set p (Cell.full a))[q]? = if p = q then some (.full a) else cells[q]? :=
    fun q => by
      rw [List.getElem?_set]
      split <;> simp_all
  refine ⟨fun {q b} hq => ?_, fun {q r b} hq hr => ?_, fun {b hb} hbh => ?_⟩
  · rw [hget] at hq
    by_cases hb : b = a
    · simp [hb]
    · rw [Function.update_of_ne hb]
      split at hq
      · simp_all
      · exact hx.live hq
  · rw [hget] at hq hr
    by_cases hb : b = a
    · subst hb
      split at hq <;> split at hr
      · omega
      · exact absurd hr hnota
      · exact absurd hq hnota
      · exact absurd hq hnota
    · split at hq
      · simp_all
      · split at hr
        · simp_all
        · exact hx.inj hq hr
  · simp only [List.length_set]
    have hprobe : ∀ s e, probe (cells.set p (.full a)) s e = probe cells s e := by
      intro s e; simp [probe]
    simp only [hprobe, hget]
    by_cases hba : b = a
    · subst hba
      obtain rfl : h = hb := by simpa using hbh
      refine ⟨d, hd, by simp [← hpd], fun e he => ?_⟩
      have hful := hbefore e he
      rw [cellAt_eq (probe_lt hs e)]
      split
      · simp
      · intro hemp
        simp only [Option.some.injEq] at hemp
        simp [hemp, Cell.isFree] at hful
    · rw [Function.update_of_ne hba] at hbh
      obtain ⟨d', hd', hfull', hpath'⟩ := hx.path hbh
      have hne : p ≠ probe cells hb d' := by
        intro he
        rw [← he, hpc] at hfull'
        simp only [Option.some.injEq] at hfull'
        simp [hfull', Cell.isFree] at hfree
      refine ⟨d', hd', by simp [hne, hfull'], fun e he => ?_⟩
      split
      · simp
      · exact hpath' e he

theorem index_delete [DecidableEq α] (hp : cells[p]? = some (.full a)) :
    Index (cells.set p .deleted) (Function.update home a none) := by
  have hget : ∀ q, (cells.set p (Cell.deleted))[q]? = if p = q then some .deleted else cells[q]? :=
    fun q => by
      rw [List.getElem?_set]
      split
      · have : p < cells.length := by
          by_contra hge
          simp [List.getElem?_eq_none (by omega : cells.length ≤ p)] at hp
        simp [this]
      · rfl
  refine ⟨fun {q b} hq => ?_, fun {q r b} hq hr => ?_, fun {b hb} hbh => ?_⟩
  · rw [hget] at hq
    split at hq
    · simp at hq
    · rename_i hpq
      have hb : b ≠ a := fun he => hpq (hx.inj hp (he ▸ hq))
      rw [Function.update_of_ne hb]
      exact hx.live hq
  · rw [hget] at hq hr
    split at hq
    · simp at hq
    · split at hr
      · simp at hr
      · exact hx.inj hq hr
  · simp only [List.length_set]
    have hprobe : ∀ s e, probe (cells.set p .deleted) s e = probe cells s e := by
      intro s e; simp [probe]
    simp only [hprobe, hget]
    have hba : b ≠ a := by
      rintro rfl
      simp at hbh
    rw [Function.update_of_ne hba] at hbh
    obtain ⟨d', hd', hfull', hpath'⟩ := hx.path hbh
    have hne : p ≠ probe cells hb d' := by
      intro he
      rw [← he, hp] at hfull'
      simp only [Option.some.injEq, Cell.full.injEq] at hfull'
      exact hba hfull'.symm
    refine ⟨d', hd', by simp [hne, hfull'], fun e he => ?_⟩
    split
    · simp
    · exact hpath' e he

theorem contents_nodup : (contents cells).Nodup := by
  unfold contents
  rw [List.Nodup, List.pairwise_filterMap, List.pairwise_iff_getElem]
  intro p q hp hq hpq a ha b hb hab
  have hfull : ∀ {c : Cell α} {x : α}, c.content = some x → c = .full x := by
    intro c x hc
    cases c <;> simp_all [Cell.content]
  have h1 : cells[p]? = some (.full a) := by rw [List.getElem?_eq_getElem hp, hfull ha]
  have h2 : cells[q]? = some (.full a) := by rw [List.getElem?_eq_getElem hq, hfull hb, hab]
  have := hx.inj h1 h2
  omega

theorem mem_contents (ha : a ∈ contents cells) : home a ≠ none := by
  obtain ⟨c, hc, hca⟩ := List.mem_filterMap.mp ha
  obtain ⟨p, hp⟩ := List.mem_iff_getElem?.mp hc
  cases c with
  | full b =>
    obtain rfl : b = a := by simpa [Cell.content] using hca
    exact hx.live hp
  | _ => simp [Cell.content] at hca

theorem contents_length_le {ids : List α} (hids : ∀ a, home a ≠ none → a ∈ ids) :
    (contents cells).length ≤ ids.length :=
  (List.subperm_of_subset (contents_nodup hx) fun _ ha => hids _ (mem_contents hx ha)).length_le

end Index

theorem index_empty (n : Nat) :
    Index (List.replicate n (Cell.empty : Cell α)) (fun _ => none) := by
  refine ⟨fun h => ?_, fun h => ?_, fun h => ?_⟩
  · have := List.mem_of_getElem? h
    simp at this
  · have := List.mem_of_getElem? h
    simp at this
  · simp at h

theorem exists_empty (h : (contents cells).length + deletedCount cells < cells.length) :
    ∃ pos : Nat, cells[pos]? = some .empty := by
  by_contra hno
  have hnone : ∀ c ∈ cells, c ≠ .empty := by
    intro c hc he
    obtain ⟨p, hp⟩ := List.mem_iff_getElem?.mp hc
    exact hno ⟨p, by rw [hp, he]⟩
  have hall : ∀ l : List (Cell α), (∀ c ∈ l, c ≠ .empty) →
      l.length = (contents l).length + deletedCount l := by
    intro l hl
    induction l with
    | nil => rfl
    | cons c l ih =>
      have := ih fun x hx => hl x (by simp [hx])
      simp only [contents, deletedCount] at this
      simp only [contents, deletedCount, List.filterMap_cons, List.countP_cons, List.length_cons]
      cases c with
      | empty => exact absurd rfl (hl .empty (by simp))
      | deleted => simp only [Cell.content, Cell.isDeleted, ↓reduceIte]; omega
      | full a => simp [Cell.content, Cell.isDeleted]; omega
  have := hall cells hnone
  omega

theorem deletedCount_set {p : Nat} {c old : Cell α} (hp : cells[p]? = some old) :
    deletedCount (cells.set p c) + (if old.isDeleted then 1 else 0) =
      deletedCount cells + (if c.isDeleted then 1 else 0) := by
  obtain ⟨hlt, hold⟩ := List.getElem?_eq_some_iff.mp hp
  unfold deletedCount
  rw [List.countP_set hlt, hold]
  have hle : (if old.isDeleted then 1 else 0) ≤ cells.countP Cell.isDeleted := by
    split
    · rename_i h
      exact List.countP_pos_iff.mpr ⟨old, List.mem_of_getElem? hp, h⟩
    · omega
  omega

theorem deletedCount_replicate (n : Nat) :
    deletedCount (List.replicate n (Cell.empty : Cell α)) = 0 := by
  simp [deletedCount, List.countP_replicate, Cell.isDeleted]

end XPerl.Framework.ProbeTable
