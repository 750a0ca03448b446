import Mathlib.Data.Finset.Card
import XPerl.Diagnostics.Merging
import XPerl.Framework.Agenda

/-! Fatal warnings are wrapped where they hang: `Perl_diag_wrap_fatalized_warning_node`. -/

namespace XPerl.Diagnostics

open XPerl.Framework.Agenda

/-- A place in the `contents` of a hash. -/
structure Position where
  parent : Nat
  index : Nat
deriving DecidableEq

def slotAt (h : Heap) (p : Position) : Option Nat := messageAt (h.contents p.parent) p.index

def diagnosticAt (h : Heap) (p : Position) : Option (Nat × Fields) :=
  (slotAt h p).bind fun d => h[d]?.map fun f => (d, f)

def setSlot (h : Heap) (p : Position) (d : Nat) : Heap :=
  h.modify p.parent fun f => { f with contents := f.contents.set p.index (some d) }

def wrapperCode : String := "ERROR_FATALIZED_WARNING_WRAPPER"

def Fields.isWrapper (f : Fields) : Bool := f.code = some wrapperCode

def fatalizedWarning (warning : Nat) (f : Fields) (reason : String) : Fields where
  code := some wrapperCode
  number := some 2719
  kind := some "CORE_RUNTIME"
  severity := some .fatalError
  location := f.location
  promotionReason := some reason
  fatalWarning := true
  contents := [some warning]

/-- The arguments of a walk that are the same at all its nodes. -/
structure Promotion where
  fatalAll : Bool
  allReason : String

def Promotion.reason (c : Promotion) : String :=
  if c.fatalAll then c.allReason else "fatal warning category"

def Promotion.fatal (c : Promotion) (f : Fields) : Bool :=
  !f.isWrapper && !f.note && f.isWarning && (c.fatalAll || f.fatalWarning)

inductive Frame where
  | visit (p : Position) (suppressSelf : Bool)
  | exit
deriving DecidableEq

/-- The heap, and the path to the node that is visited, the nearest first. -/
structure Walk where
  heap : Heap
  active : List Nat
deriving DecidableEq

def childFrames (parent : Nat) (count : Nat) (alreadyWrapper : Bool) : List Frame :=
  (List.range count).map fun i => .visit ⟨parent, i⟩ (alreadyWrapper && i == 0)

def wrapAt (c : Promotion) (h : Heap) (p : Position) (d : Nat) (f : Fields) : Heap :=
  setSlot (h ++ [fatalizedWarning d f c.reason]) p h.length

def walkStep (c : Promotion) : Frame → Walk → Walk × List Frame
  | .exit, w => (⟨w.heap, w.active.tail⟩, [])
  | .visit p suppressSelf, w =>
    match diagnosticAt w.heap p with
    | none => (w, [])
    | some (d, f) =>
      if d ∈ w.active then (w, [])
      else if c.fatal f && !suppressSelf then
        (⟨wrapAt c w.heap p d f, w.heap.length :: w.active⟩,
          childFrames w.heap.length (fatalizedWarning d f c.reason).contents.length true ++ [.exit])
      else
        (⟨w.heap, d :: w.active⟩, childFrames d f.contents.length f.isWrapper ++ [.exit])

/-- `Perl_diag_wrap_fatalized_warning_node`; none where the rounds do not suffice. -/
def wrapFatalizedWarningNode (rounds : Nat) (c : Promotion) (h : Heap) (root : Position)
    (suppressRoot : Bool) : Option Heap :=
  (run (walkStep c) rounds [.visit root suppressRoot] ⟨h, []⟩).map Walk.heap

section Slots

variable {h : Heap} {p q : Position} {d r : Nat} {f g : Fields}

theorem diagnosticAt_eq_some :
    diagnosticAt h p = some (d, f) ↔ slotAt h p = some d ∧ h[d]? = some f := by
  rw [diagnosticAt, Option.bind_eq_some_iff]
  constructor
  · rintro ⟨e, he, hmap⟩
    obtain ⟨g, hg, heq⟩ := Option.map_eq_some_iff.1 hmap
    cases heq
    exact ⟨he, hg⟩
  · rintro ⟨hd, hf⟩
    exact ⟨d, hd, by rw [hf, Option.map_some]⟩

theorem getElem?_setSlot :
    (setSlot h p d)[r]? = if p.parent = r then
      h[r]?.map fun f => { f with contents := f.contents.set p.index (some d) } else h[r]? := by
  rw [setSlot, List.getElem?_modify]
  split <;> simp

@[simp]
theorem length_setSlot : (setSlot h p d).length = h.length := by
  rw [setSlot, List.length_modify]

theorem contents_setSlot :
    (setSlot h p d).contents r =
      if p.parent = r then (h.contents r).set p.index (some d) else h.contents r := by
  rw [Heap.contents, Heap.contents, getElem?_setSlot]
  split
  · cases h[r]? <;> simp
  · rfl

theorem index_lt_of_slotAt (hd : slotAt h p = some d) : p.index < (h.contents p.parent).length :=
  (List.getElem?_eq_some_iff.1 (messageAt_eq_some.1 hd)).1

theorem parent_lt_of_slotAt (hd : slotAt h p = some d) : p.parent < h.length := by
  by_contra hle
  have hlt := index_lt_of_slotAt hd
  rw [Heap.contents_of_le (Nat.le_of_not_lt hle)] at hlt
  simp at hlt

theorem slotAt_setSlot_self (hp : p.index < (h.contents p.parent).length) :
    slotAt (setSlot h p d) p = some d := by
  rw [slotAt, messageAt_eq_some, contents_setSlot, if_pos rfl, List.getElem?_set_self hp]

theorem slotAt_setSlot_ne (hne : p ≠ q) : slotAt (setSlot h p d) q = slotAt h q := by
  rw [slotAt, slotAt, contents_setSlot]
  split
  case isTrue heq =>
    have hindex : p.index ≠ q.index := fun hindex => hne (by
      cases p
      cases q
      cases heq
      cases hindex
      rfl)
    rw [messageAt, messageAt, List.getElem?_set_ne hindex]
  case isFalse => rfl

theorem contents_append_of_lt (hr : r < h.length) : Heap.contents (h ++ [f]) r = h.contents r := by
  rw [Heap.contents, Heap.contents, List.getElem?_append_left hr]

theorem slotAt_append (hp : p.parent < h.length) : slotAt (h ++ [f]) p = slotAt h p := by
  rw [slotAt, slotAt, contents_append_of_lt hp]

end Slots

section Rewriting

variable {c : Promotion} {h₀ h : Heap} {ps : List Position} {p q : Position} {d r i : Nat}
  {f g : Fields}

/-- Nothing differs but what slots of `contents` refer to. -/
def Fields.Agrees (f g : Fields) : Prop :=
  g = { f with contents := g.contents } ∧ g.contents.length = f.contents.length

/-- The heap holds wrappers at some positions, in their order, and is as before else. -/
structure Rewrites (c : Promotion) (h₀ : Heap) (ps : List Position) (h : Heap) : Prop where
  length : h.length = h₀.length + ps.length
  fields : ∀ (r : Nat) (f : Fields), h₀[r]? = some f → ∃ g, h[r]? = some g ∧ f.Agrees g
  kept : ∀ p, p.parent < h₀.length → p ∉ ps → slotAt h p = slotAt h₀ p
  wrapped : ∀ i p, ps[i]? = some p → slotAt h p = some (h₀.length + i) ∧
    ∃ d f, diagnosticAt h₀ p = some (d, f) ∧ c.fatal f ∧
      h[h₀.length + i]? = some (fatalizedWarning d f c.reason)

theorem Rewrites.refl (c : Promotion) (h₀ : Heap) : Rewrites c h₀ [] h₀ where
  length := rfl
  fields := fun r f hf => ⟨f, hf, rfl, rfl⟩
  kept := fun _ _ _ => rfl
  wrapped := fun i p hp => by simp at hp

theorem Fields.Agrees.fatalizedWarning (h : f.Agrees g) (reason : String) :
    fatalizedWarning d g reason = fatalizedWarning d f reason := by
  rw [h.1]
  rfl

theorem Fields.Agrees.fatal (h : f.Agrees g) : c.fatal g = c.fatal f := by
  rw [h.1]
  rfl

theorem Fields.Agrees.isWrapper (h : f.Agrees g) : g.isWrapper = f.isWrapper := by
  rw [h.1]
  rfl

theorem Rewrites.wrapAt (hr : Rewrites c h₀ ps h) (hp : p ∉ ps)
    (hd : diagnosticAt h₀ p = some (d, f)) (hfatal : c.fatal f) (heq : f.Agrees g) :
    Rewrites c h₀ (ps ++ [p]) (wrapAt c h p d g) := by
  obtain ⟨hslot, hf⟩ := diagnosticAt_eq_some.1 hd
  have hparent := parent_lt_of_slotAt hslot
  have hlength := hr.length
  have hplt : p.parent < h.length := by omega
  have hnow : slotAt h p = some d := by rw [hr.kept p hparent hp, hslot]
  have hlt : p.index < ((h ++ [fatalizedWarning d g c.reason]).contents p.parent).length := by
    rw [contents_append_of_lt hplt]
    exact index_lt_of_slotAt hnow
  have hother (q : Position) (hq : q.parent < h.length) (hne : p ≠ q) :
      slotAt (Diagnostics.wrapAt c h p d g) q = slotAt h q := by
    rw [Diagnostics.wrapAt, slotAt_setSlot_ne hne, slotAt_append hq]
  refine ⟨?_, fun r f' hf' => ?_, fun q hq hnot => ?_, fun i q hq => ?_⟩
  · rw [Diagnostics.wrapAt, length_setSlot, List.length_append, List.length_append, hlength,
      List.length_singleton, List.length_singleton, Nat.add_assoc]
  · obtain ⟨g', hg', hagrees⟩ := hr.fields r f' hf'
    have hrlt : r < h.length := (List.getElem?_eq_some_iff.1 hg').1
    rw [Diagnostics.wrapAt, getElem?_setSlot, List.getElem?_append_left hrlt, hg']
    split
    · refine ⟨_, rfl, ?_, ?_⟩
      · conv_lhs => rw [hagrees.1]
      · simpa using hagrees.2
    · exact ⟨g', rfl, hagrees⟩
  · rw [List.mem_append, List.mem_singleton, not_or] at hnot
    have hqlt : q.parent < h.length := by omega
    rw [hother q hqlt (Ne.symm hnot.2), hr.kept q hq hnot.1]
  · rcases Nat.lt_trichotomy i ps.length with hi | hi | hi
    · rw [List.getElem?_append_left hi] at hq
      obtain ⟨hwrapped, d', f', hd', hfatal', hwrapper⟩ := hr.wrapped i q hq
      have hqparent := parent_lt_of_slotAt (diagnosticAt_eq_some.1 hd').1
      have hne : p ≠ q := fun hpq => hp (hpq ▸ List.mem_of_getElem? hq)
      have hqlt : q.parent < h.length := by omega
      have hnew : p.parent ≠ h₀.length + i := by omega
      have hilt : h₀.length + i < h.length := by omega
      refine ⟨by rw [hother q hqlt hne, hwrapped], d', f', hd', hfatal', ?_⟩
      rw [Diagnostics.wrapAt, getElem?_setSlot, if_neg hnew, List.getElem?_append_left hilt,
        hwrapper]
    · rw [hi, List.getElem?_concat_length] at hq
      cases hq
      subst hi
      refine ⟨?_, d, f, hd, hfatal, ?_⟩
      · rw [Diagnostics.wrapAt, slotAt_setSlot_self hlt, hlength]
      · rw [← hlength, Diagnostics.wrapAt, getElem?_setSlot, if_neg hplt.ne,
          List.getElem?_concat_length, heq.fatalizedWarning]
    · have hlt := (List.getElem?_eq_some_iff.1 hq).1
      rw [List.length_append, List.length_singleton] at hlt
      omega

end Rewriting

section Paths

variable {h : Heap} {p q : Position} {act act' : List Nat} {s t : Bool} {d n w : Nat}

/-- A path without repeats, whose last reference is none to its nodes. Suppressed is what a wrapper
holds in its first slot, but for the first node. -/
inductive Arrives (h : Heap) (q : Position) (t : Bool) : List Nat → Position → Bool → Prop
  | here {act : List Nat} {d : Nat} (hd : slotAt h q = some d) (hnew : d ∉ act) :
    Arrives h q t act q t
  | down {act : List Nat} {p : Position} {s : Bool} {d i : Nat} {f : Fields}
      (hd : diagnosticAt h p = some (d, f)) (hnew : d ∉ act) (hi : i < f.contents.length)
      (hnext : Arrives h q t (d :: act) ⟨d, i⟩ (f.isWrapper && i == 0)) : Arrives h q t act p s

theorem Arrives.congr (hclosed : h.Closed) (harrives : Arrives h q t act p s)
    (hact : ∀ x < h.length, x ∈ act' ↔ x ∈ act) : Arrives h q t act' p s := by
  induction harrives generalizing act' with
  | here hd hnew => exact .here hd fun hmem => hnew ((hact _ (hclosed.lt hd)).1 hmem)
  | down hd hnew hi _ ih =>
    have hlt := hclosed.lt (diagnosticAt_eq_some.1 hd).1
    refine .down hd (fun hmem => hnew ((hact _ hlt).1 hmem)) hi (ih fun x hx => ?_)
    rw [List.mem_cons, List.mem_cons, hact x hx]

def unvisited (n : Nat) (act : List Nat) : Nat := ((Finset.range n).filter (· ∉ act)).card

theorem unvisited_cons_lt (hd : d < n) (hnew : d ∉ act) :
    unvisited n (d :: act) < unvisited n act := by
  apply Finset.card_lt_card
  rw [Finset.ssubset_iff_of_subset]
  · exact ⟨d, by simp [hd, hnew], by simp⟩
  · intro x hx
    simp only [Finset.mem_filter, List.mem_cons, not_or] at hx ⊢
    exact ⟨hx.1, hx.2.2⟩

theorem unvisited_cons_of_le (hw : n ≤ w) : unvisited n (w :: act) = unvisited n act := by
  refine congrArg Finset.card (Finset.filter_congr fun x hx => ?_)
  have hne : x ≠ w := by
    have hlt := Finset.mem_range.1 hx
    omega
  simp [hne]

end Paths

section Visiting

variable {c : Promotion} {h₀ h : Heap} {ps : List Position} {p q : Position} {d w i : Nat}
  {f g : Fields} {act act' act'' : List Nat} {s : Bool} {fs gs : List Frame}
  {W W' : Position → Prop}

def Wraps (c : Promotion) (h : Heap) (act : List Nat) (p : Position) (s : Bool)
    (q : Position) : Prop :=
  Arrives h q false act p s ∧ ∃ d f, diagnosticAt h q = some (d, f) ∧ c.fatal f

def Walks (c : Promotion) (h₀ : Heap) (fs : List Frame) (act act' : List Nat) (ps : List Position)
    (h : Heap) (W : Position → Prop) : Prop :=
  ∃ ps' h', Clears (walkStep c) fs ⟨h, act⟩ ⟨h', act'⟩ ∧ Rewrites c h₀ (ps ++ ps') h' ∧
    ∀ q, q ∈ ps ++ ps' ↔ q ∈ ps ∨ W q

def Settled (h₀ : Heap) (ps : List Position) (act : List Nat) : Prop :=
  ∀ w ∈ act, h₀.length ≤ w → ∃ p d, ps[w - h₀.length]? = some p ∧ slotAt h₀ p = some d ∧ d ∈ act

theorem Settled.append (hact : Settled h₀ ps act) (ps' : List Position) :
    Settled h₀ (ps ++ ps') act := by
  intro w hw hle
  obtain ⟨p, d, hp, hd, hmem⟩ := hact w hw hle
  have hlt := (List.getElem?_eq_some_iff.1 hp).1
  exact ⟨p, d, by rw [List.getElem?_append_left hlt, hp], hd, hmem⟩

theorem Settled.cons (hact : Settled h₀ ps act) (hd : d < h₀.length) :
    Settled h₀ ps (d :: act) := by
  intro w hw hle
  rcases List.mem_cons.1 hw with rfl | hw
  · omega
  · obtain ⟨p, e, hp, he, hmem⟩ := hact w hw hle
    exact ⟨p, e, hp, he, List.mem_cons_of_mem d hmem⟩

theorem Walks.nil (hr : Rewrites c h₀ ps h) (hW : ∀ q, W q → q ∈ ps) :
    Walks c h₀ [] act act ps h W := by
  refine ⟨[], h, .nil, by rwa [List.append_nil], fun q => ?_⟩
  rw [List.append_nil]
  exact ⟨.inl, fun h => h.elim id (hW q)⟩

theorem Walks.append (hfirst : Walks c h₀ fs act act' ps h W)
    (hsecond : ∀ ps' h', Rewrites c h₀ (ps ++ ps') h' →
      Walks c h₀ gs act' act'' (ps ++ ps') h' W') :
    Walks c h₀ (fs ++ gs) act act'' ps h fun q => W q ∨ W' q := by
  obtain ⟨ps', h', hclears, hr, hmem⟩ := hfirst
  obtain ⟨ps'', h'', hclears', hr', hmem'⟩ := hsecond ps' h' hr
  refine ⟨ps' ++ ps'', h'', hclears.append hclears', by rwa [← List.append_assoc], fun q => ?_⟩
  rw [← List.append_assoc, hmem', hmem, or_assoc]

theorem Walks.mono (hwalks : Walks c h₀ fs act act' ps h W) (hW : ∀ q, q ∉ ps → (W q ↔ W' q)) :
    Walks c h₀ fs act act' ps h W' := by
  obtain ⟨ps', h', hclears, hr, hmem⟩ := hwalks
  refine ⟨ps', h', hclears, hr, fun q => ?_⟩
  rw [hmem]
  by_cases hq : q ∈ ps
  · simp only [hq, true_or]
  · rw [hW q hq]

theorem Walks.step {f : Frame} (heq : walkStep c f ⟨h, act⟩ = (⟨h, act'⟩, fs))
    (hwalks : Walks c h₀ fs act' act'' ps h W) : Walks c h₀ [f] act act'' ps h W := by
  obtain ⟨ps', h', hclears, hr, hmem⟩ := hwalks
  refine ⟨ps', h', clears_singleton.2 ?_, hr, hmem⟩
  rw [heq]
  exact hclears

theorem walks_exit (d : Nat) (act : List Nat) (hr : Rewrites c h₀ ps h) (hW : ∀ q, W q → q ∈ ps) :
    Walks c h₀ [.exit] (d :: act) act ps h W := Walks.step rfl (Walks.nil hr hW)

def Visits (c : Promotion) (h₀ : Heap) (act : List Nat) : Prop :=
  ∀ ps h p s, Rewrites c h₀ ps h → Settled h₀ ps act → p.parent < h₀.length →
    Walks c h₀ [.visit p s] act act ps h (Wraps c h₀ act p s)

theorem walks_children (hvisits : Visits c h₀ (d :: act)) (hd : d < h₀.length) (wrapper : Bool)
    (js : List Nat) (hr : Rewrites c h₀ ps h) (hact : Settled h₀ ps (d :: act)) :
    Walks c h₀ (js.map fun i => .visit ⟨d, i⟩ (wrapper && i == 0)) (d :: act) (d :: act) ps h
      fun q => ∃ i ∈ js, Wraps c h₀ (d :: act) ⟨d, i⟩ (wrapper && i == 0) q := by
  induction js generalizing ps h with
  | nil => exact Walks.nil hr fun q ⟨i, hi, _⟩ => by simp at hi
  | cons j js ih =>
    have hfirst := hvisits ps h ⟨d, j⟩ (wrapper && j == 0) hr hact hd
    have hwalks := hfirst.append fun ps' h' hr' => ih hr' (hact.append ps')
    refine hwalks.mono fun q _ => ?_
    simp only [List.mem_cons, exists_eq_or_imp]

theorem walks_enter (hvisits : Visits c h₀ (d :: act)) (hf : h₀[d]? = some f)
    (hagrees : f.Agrees g) (hr : Rewrites c h₀ ps h) (hact : Settled h₀ ps (d :: act)) :
    Walks c h₀ (childFrames d g.contents.length g.isWrapper ++ [.exit]) (d :: act) act ps h
      fun q => ∃ i < f.contents.length, Wraps c h₀ (d :: act) ⟨d, i⟩ (f.isWrapper && i == 0) q := by
  have hd : d < h₀.length := (List.getElem?_eq_some_iff.1 hf).1
  rw [hagrees.2, hagrees.isWrapper, childFrames]
  have hchildren := walks_children hvisits hd f.isWrapper (List.range f.contents.length) hr hact
  have hwalks := hchildren.append fun ps' h' hr' => walks_exit d act
    (W := fun _ => False) hr' fun q hq => hq.elim
  refine hwalks.mono fun q _ => ?_
  simp only [List.mem_range, or_false]

theorem walks_wrapped (hclosed : h₀.Closed) (hvisits : d ∉ act → Visits c h₀ (d :: w :: act))
    (hr : Rewrites c h₀ ps h) (hact : Settled h₀ ps act) (hp : ps[i]? = some p)
    (hd : slotAt h₀ p = some d) (hf : h₀[d]? = some f) (hw : w = h₀.length + i) :
    Walks c h₀ [.visit ⟨w, 0⟩ true, .exit] (w :: act) act ps h fun q =>
      d ∉ act ∧ ∃ j < f.contents.length,
        Wraps c h₀ (d :: act) ⟨d, j⟩ (f.isWrapper && j == 0) q := by
  have hdlt : d < h₀.length := (List.getElem?_eq_some_iff.1 hf).1
  obtain ⟨-, d', f', hd', -, hwrapper⟩ := hr.wrapped i p hp
  obtain ⟨hslot, -⟩ := diagnosticAt_eq_some.1 hd'
  cases hd.symm.trans hslot
  obtain ⟨g, hg, hagrees⟩ := hr.fields d f hf
  have hdiagnostic : diagnosticAt h ⟨w, 0⟩ = some (d, g) := by
    rw [diagnosticAt_eq_some, slotAt, hw, Heap.contents_of_get hwrapper]
    exact ⟨rfl, hg⟩
  have hmem : d ∈ w :: act ↔ d ∈ act := by
    rw [List.mem_cons]
    exact ⟨fun h => h.elim (fun heq => by omega) id, .inr⟩
  by_cases hd' : d ∈ act
  · have hstep : walkStep c (.visit ⟨w, 0⟩ true) ⟨h, w :: act⟩ = (⟨h, w :: act⟩, []) := by
      simp only [walkStep, hdiagnostic]
      rw [if_pos (hmem.2 hd')]
    have hnone (q : Position) (hq : False) : q ∈ ps := hq.elim
    have hwalks := (Walks.step hstep (Walks.nil hr hnone)).append fun ps' h' hr' =>
      walks_exit w act (W := fun _ => False) hr' fun q hq => hq.elim
    exact hwalks.mono fun q _ => ⟨fun h => h.elim False.elim False.elim, fun h => absurd hd' h.1⟩
  · have hstep : walkStep c (.visit ⟨w, 0⟩ true) ⟨h, w :: act⟩ =
        (⟨h, d :: w :: act⟩, childFrames d g.contents.length g.isWrapper ++ [.exit]) := by
      simp only [walkStep, hdiagnostic]
      rw [if_neg (mt hmem.1 hd')]
      simp
    have hsettled : Settled h₀ ps (d :: w :: act) := by
      intro x hx hle
      simp only [List.mem_cons] at hx
      rcases hx with rfl | rfl | hx
      · omega
      · exact ⟨p, d, by rw [hw, Nat.add_sub_cancel_left, hp], hd, List.mem_cons_self⟩
      · obtain ⟨q, e, hq, he, hmem⟩ := hact x hx hle
        exact ⟨q, e, hq, he, by simp [hmem]⟩
    have henter := walks_enter (hvisits hd') hf hagrees hr hsettled
    have hwalks := (Walks.step hstep henter).append fun ps' h' hr' =>
      walks_exit w act (W := fun _ => False) hr' fun q hq => hq.elim
    refine hwalks.mono fun q _ => ?_
    have hpath (x : Nat) (hx : x < h₀.length) : x ∈ d :: w :: act ↔ x ∈ d :: act := by
      simp only [List.mem_cons]
      exact ⟨fun h => h.imp_right fun h => h.resolve_left (by omega), fun h => h.imp_right .inr⟩
    rw [or_false]
    constructor
    · rintro ⟨j, hj, harrives, hfatal⟩
      exact ⟨hd', j, hj, harrives.congr hclosed fun x hx => (hpath x hx).symm, hfatal⟩
    · rintro ⟨-, j, hj, harrives, hfatal⟩
      exact ⟨j, hj, harrives.congr hclosed hpath, hfatal⟩

theorem wraps_iff (hd : slotAt h₀ p = some d) (hf : h₀[d]? = some f) :
    Wraps c h₀ act p s q ↔ d ∉ act ∧ ((q = p ∧ s = false ∧ c.fatal f) ∨
      ∃ i < f.contents.length, Wraps c h₀ (d :: act) ⟨d, i⟩ (f.isWrapper && i == 0) q) := by
  have hdiagnostic : diagnosticAt h₀ p = some (d, f) := diagnosticAt_eq_some.2 ⟨hd, hf⟩
  constructor
  · rintro ⟨harrives, hfatal⟩
    cases harrives with
    | here hd' hnew =>
      obtain ⟨e, g, he, hg⟩ := hfatal
      cases hd.symm.trans hd'
      cases hdiagnostic.symm.trans he
      exact ⟨hnew, .inl ⟨rfl, rfl, hg⟩⟩
    | down hd' hnew hi hnext =>
      cases hdiagnostic.symm.trans hd'
      exact ⟨hnew, .inr ⟨_, hi, hnext, hfatal⟩⟩
  · rintro ⟨hnew, ⟨rfl, rfl, hfatal⟩ | ⟨i, hi, hnext, hfatal⟩⟩
    · exact ⟨.here hd hnew, d, f, hdiagnostic, hfatal⟩
    · exact ⟨.down hdiagnostic hnew hi hnext, hfatal⟩

theorem Rewrites.diagnosticAt_kept (hr : Rewrites c h₀ ps h) (hp : p ∉ ps)
    (hd : slotAt h₀ p = some d) (hf : h₀[d]? = some f) :
    ∃ g, diagnosticAt h p = some (d, g) ∧ f.Agrees g := by
  obtain ⟨g, hg, hagrees⟩ := hr.fields d f hf
  refine ⟨g, diagnosticAt_eq_some.2 ⟨?_, hg⟩, hagrees⟩
  rw [hr.kept p (parent_lt_of_slotAt hd) hp, hd]

theorem fatal_fatalizedWarning (reason : String) :
    c.fatal (fatalizedWarning d f reason) = false := by
  simp [Promotion.fatal, Fields.isWrapper, fatalizedWarning]

theorem walks_rewritten (hclosed : h₀.Closed)
    (hvisits : d ∉ act → Visits c h₀ (d :: (h₀.length + i) :: act)) (hr : Rewrites c h₀ ps h)
    (hact : Settled h₀ ps act) (hp : ps[i]? = some p) (hd : slotAt h₀ p = some d)
    (hf : h₀[d]? = some f) : Walks c h₀ [.visit p s] act act ps h (Wraps c h₀ act p s) := by
  obtain ⟨hslot, d', f', hd', -, hwrapper⟩ := hr.wrapped i p hp
  have hdiagnostic := diagnosticAt_eq_some.2 ⟨hslot, hwrapper⟩
  by_cases hw : h₀.length + i ∈ act
  · have hstep : walkStep c (.visit p s) ⟨h, act⟩ = (⟨h, act⟩, []) := by
      simp only [walkStep, hdiagnostic]
      rw [if_pos hw]
    refine Walks.step hstep (Walks.nil hr fun q hq => ?_)
    obtain ⟨p', e, hp', he, hmem⟩ := hact _ hw (by omega)
    rw [Nat.add_sub_cancel_left, hp] at hp'
    cases hp'
    cases hd.symm.trans he
    exact absurd hmem ((wraps_iff hd hf).1 hq).1
  · have hstep : walkStep c (.visit p s) ⟨h, act⟩ =
        (⟨h, (h₀.length + i) :: act⟩, [.visit ⟨h₀.length + i, 0⟩ true, .exit]) := by
      simp only [walkStep, hdiagnostic]
      rw [if_neg hw, fatal_fatalizedWarning]
      rfl
    have hwalks := walks_wrapped hclosed hvisits hr hact hp hd hf rfl
    refine (Walks.step hstep hwalks).mono fun q hq => ?_
    have hne : q ≠ p := fun heq => hq (heq ▸ List.mem_of_getElem? hp)
    rw [wraps_iff hd hf]
    simp [hne]

theorem walks_kept (hclosed : h₀.Closed) (hvisits : d ∉ act → Visits c h₀ (d :: act))
    (hwrapped : d ∉ act → Visits c h₀ (d :: h.length :: act)) (hr : Rewrites c h₀ ps h)
    (hact : Settled h₀ ps act) (hp : p ∉ ps) (hd : slotAt h₀ p = some d) (hf : h₀[d]? = some f) :
    Walks c h₀ [.visit p s] act act ps h (Wraps c h₀ act p s) := by
  have hdlt : d < h₀.length := (List.getElem?_eq_some_iff.1 hf).1
  obtain ⟨g, hdiagnostic, hagrees⟩ := hr.diagnosticAt_kept hp hd hf
  by_cases hmem : d ∈ act
  · have hstep : walkStep c (.visit p s) ⟨h, act⟩ = (⟨h, act⟩, []) := by
      simp only [walkStep, hdiagnostic]
      rw [if_pos hmem]
    exact Walks.step hstep (Walks.nil hr fun q hq => absurd hmem ((wraps_iff hd hf).1 hq).1)
  by_cases hfatal : c.fatal f && !s
  · have hstep : walkStep c (.visit p s) ⟨h, act⟩ =
        (⟨wrapAt c h p d g, h.length :: act⟩, [.visit ⟨h.length, 0⟩ true, .exit]) := by
      simp only [walkStep, hdiagnostic]
      rw [if_neg hmem, hagrees.fatal, if_pos hfatal]
      rfl
    rw [Bool.and_eq_true, Bool.not_eq_true'] at hfatal
    have hr' := hr.wrapAt hp (diagnosticAt_eq_some.2 ⟨hd, hf⟩) hfatal.1 hagrees
    obtain ⟨ps', h', hclears, hrewrites, hall⟩ := walks_wrapped hclosed hwrapped hr'
      (hact.append [p]) List.getElem?_concat_length hd hf hr.length
    refine ⟨[p] ++ ps', h', clears_singleton.2 ?_, by rwa [← List.append_assoc], fun q => ?_⟩
    · rw [hstep]
      exact hclears
    · rw [← List.append_assoc, hall, List.mem_append, List.mem_singleton, or_assoc, wraps_iff hd hf]
      simp [hmem, hfatal]
  · have hstep : walkStep c (.visit p s) ⟨h, act⟩ =
        (⟨h, d :: act⟩, childFrames d g.contents.length g.isWrapper ++ [.exit]) := by
      simp only [walkStep, hdiagnostic]
      rw [if_neg hmem, hagrees.fatal, if_neg hfatal]
    have henter := walks_enter (hvisits hmem) hf hagrees hr (hact.cons hdlt)
    refine (Walks.step hstep henter).mono fun q _ => ?_
    have hnot : ¬ (q = p ∧ s = false ∧ c.fatal f) := fun hall => hfatal (by simp [hall.2])
    rw [wraps_iff hd hf]
    simp [hmem, hnot]

theorem visits (hclosed : h₀.Closed) (n : Nat) : unvisited h₀.length act = n → Visits c h₀ act := by
  -- the nodes that are not on the path become fewer
  induction n using Nat.strong_induction_on generalizing act with
  | _ n ih =>
    intro hn ps h p s hr hact hparent
    cases hd : slotAt h₀ p with
    | none =>
      have hp : p ∉ ps := fun hmem => by
        obtain ⟨i, hi⟩ := List.mem_iff_getElem?.1 hmem
        obtain ⟨-, d, f, hd', -⟩ := hr.wrapped i p hi
        rw [(diagnosticAt_eq_some.1 hd').1] at hd
        cases hd
      have hstep : walkStep c (.visit p s) ⟨h, act⟩ = (⟨h, act⟩, []) := by
        simp only [walkStep, diagnosticAt, hr.kept p hparent hp, hd, Option.bind_none]
      refine Walks.step hstep (Walks.nil hr fun q hq => ?_)
      cases hq.1 with
      | here hd' => cases hd.symm.trans hd'
      | down hd' => cases hd.symm.trans (diagnosticAt_eq_some.1 hd').1
    | some d =>
      have hdlt := hclosed.lt hd
      have hf : h₀[d]? = some h₀[d] := List.getElem?_eq_getElem hdlt
      have hless (hnew : d ∉ act) : Visits c h₀ (d :: act) :=
        ih _ (hn ▸ unvisited_cons_lt hdlt hnew) rfl
      have hlessWrapper (w : Nat) (hw : h₀.length ≤ w) (hnew : d ∉ act) :
          Visits c h₀ (d :: w :: act) := by
        have hnot : d ∉ w :: act := by
          simp only [List.mem_cons, not_or]
          exact ⟨by omega, hnew⟩
        exact ih _ (hn ▸ (unvisited_cons_lt hdlt hnot).trans_eq (unvisited_cons_of_le hw)) rfl
      by_cases hp : p ∈ ps
      · obtain ⟨i, hi⟩ := List.mem_iff_getElem?.1 hp
        exact walks_rewritten hclosed (hlessWrapper _ (by omega)) hr hact hi hd hf
      · have hlength := hr.length
        exact walks_kept hclosed hless (hlessWrapper _ (by omega)) hr hact hp hd hf

end Visiting

section Again

variable {c : Promotion} {h₀ h : Heap} {ps : List Position} {p q root : Position} {d r w i : Nat}
  {f g : Fields} {act : List Nat} {s t : Bool}

theorem slotAt_wrapper (hr : Rewrites c h₀ ps h) (hi : ps[i]? = some p) (hd : slotAt h₀ p = some d)
    (j : Nat) : slotAt h ⟨h₀.length + i, j⟩ = if j = 0 then some d else none := by
  obtain ⟨-, d', f, hd', -, hwrapper⟩ := hr.wrapped i p hi
  cases hd.symm.trans (diagnosticAt_eq_some.1 hd').1
  rw [slotAt, Heap.contents_of_get hwrapper]
  cases j with
  | zero => rfl
  | succ j => rfl

theorem Rewrites.slotAt_cases (hr : Rewrites c h₀ ps h) (hd : slotAt h q = some d) :
    (q.parent < h₀.length ∧ q ∉ ps ∧ slotAt h₀ q = some d) ∨
      (∃ i, ps[i]? = some q ∧ d = h₀.length + i) ∨
      ∃ i p, ps[i]? = some p ∧ q = ⟨h₀.length + i, 0⟩ ∧ slotAt h₀ p = some d := by
  rcases Nat.lt_or_ge q.parent h₀.length with hlt | hge
  · by_cases hq : q ∈ ps
    · obtain ⟨i, hi⟩ := List.mem_iff_getElem?.1 hq
      exact .inr (.inl ⟨i, hi, Option.some.inj (hd.symm.trans (hr.wrapped i q hi).1)⟩)
    · exact .inl ⟨hlt, hq, by rw [← hr.kept q hlt hq, hd]⟩
  · have hlt := parent_lt_of_slotAt hd
    obtain ⟨parent, index⟩ := q
    obtain ⟨i, rfl⟩ : ∃ i, parent = h₀.length + i := Nat.exists_eq_add_of_le hge
    have hlength := hr.length
    have hi : i < ps.length := by
      simp only at hlt
      omega
    have hp : ps[i]? = some ps[i] := List.getElem?_eq_getElem hi
    obtain ⟨-, e, f, he, -⟩ := hr.wrapped i _ hp
    have hslot := slotAt_wrapper hr hp (diagnosticAt_eq_some.1 he).1 index
    rw [hd] at hslot
    split at hslot
    case isTrue hzero =>
      cases hslot
      subst hzero
      exact .inr (.inr ⟨i, ps[i], hp, rfl, (diagnosticAt_eq_some.1 he).1⟩)
    case isFalse => cases hslot

theorem Rewrites.closed (hclosed : h₀.Closed) (hr : Rewrites c h₀ ps h) : h.Closed := by
  intro r d hd
  obtain ⟨i, hi⟩ := List.mem_iff_getElem?.1 hd
  have hslot : slotAt h ⟨r, i⟩ = some d := messageAt_eq_some.2 hi
  have hlength := hr.length
  rcases hr.slotAt_cases hslot with ⟨-, -, hold⟩ | ⟨k, hk, rfl⟩ | ⟨k, p, -, -, hold⟩
  · have hlt := hclosed.lt hold
    omega
  · have hlt := (List.getElem?_eq_some_iff.1 hk).1
    omega
  · have hlt := hclosed.lt hold
    omega

theorem Rewrites.arrives (hclosed : h₀.Closed) (hr : Rewrites c h₀ ps h)
    (harrives : Arrives h q t act p s) (hq : q.parent < h₀.length) (hkept : q ∉ ps) :
    (p.parent < h₀.length → Arrives h₀ q t act p s) ∧
      ∀ i p' d f, p = ⟨h₀.length + i, 0⟩ → ps[i]? = some p' → slotAt h₀ p' = some d →
        h₀[d]? = some f → d ∉ act ∧ ∃ j < f.contents.length,
          Arrives h₀ q t (d :: act) ⟨d, j⟩ (f.isWrapper && j == 0) := by
  induction harrives with
  | here hd hnew =>
    refine ⟨fun _ => .here ?_ hnew, fun i p' d f hp => ?_⟩
    · rw [← hr.kept q hq hkept, hd]
    · rw [hp] at hq
      simp only at hq
      omega
  | @down act p s d j f hd hnew hj hnext ih =>
    obtain ⟨hslot, hf⟩ := diagnosticAt_eq_some.1 hd
    refine ⟨fun hp => ?_, fun i p' e g hp hi he hg => ?_⟩
    · rcases hr.slotAt_cases hslot with ⟨-, hnot, hold⟩ | ⟨i, hi, rfl⟩ | ⟨i, p', -, rfl, -⟩
      · have hlt := hclosed.lt hold
        obtain ⟨f', hf', hagrees⟩ := hr.fields d _ (List.getElem?_eq_getElem hlt)
        cases hf.symm.trans hf'
        rw [hagrees.isWrapper] at ih
        rw [hagrees.2] at hj
        exact .down (diagnosticAt_eq_some.2 ⟨hold, List.getElem?_eq_getElem hlt⟩) hnew hj (ih.1 hlt)
      · obtain ⟨-, e, g, he, -, hwrapper⟩ := hr.wrapped i p hi
        obtain ⟨hold, hg⟩ := diagnosticAt_eq_some.1 he
        cases hf.symm.trans hwrapper
        have hzero : j = 0 := Nat.lt_one_iff.1 hj
        subst hzero
        obtain ⟨hnew', k, hk, hpath⟩ := ih.2 i p e g rfl hi hold hg
        rw [List.mem_cons, not_or] at hnew'
        refine .down he hnew'.2 hk (hpath.congr hclosed fun x hx => ?_)
        have hne : x ≠ h₀.length + i := by omega
        simp [hne]
      · simp only at hp
        omega
    · subst hp
      rw [slotAt_wrapper hr hi he, if_pos rfl] at hslot
      cases hslot
      have hlt := hclosed.lt he
      obtain ⟨f', hf', hagrees⟩ := hr.fields d g hg
      cases hf.symm.trans hf'
      rw [hagrees.isWrapper] at ih
      rw [hagrees.2] at hj
      exact ⟨hnew, j, hj, ih.1 hlt⟩

def Child (h : Heap) (d e : Nat) : Prop := ∃ i, slotAt h ⟨d, i⟩ = some e

theorem Arrives.ends (harrives : Arrives h q t act p s) :
    (q = p ∧ t = s) ∨ (∃ d, slotAt h p = some d ∧ Relation.ReflTransGen (Child h) d q.parent) ∧
      ∃ f, h[q.parent]? = some f ∧ t = (f.isWrapper && q.index == 0) := by
  induction harrives with
  | here => exact .inl ⟨rfl, rfl⟩
  | down hd hnew hj _ ih =>
    obtain ⟨hslot, hf⟩ := diagnosticAt_eq_some.1 hd
    refine .inr ⟨⟨_, hslot, ?_⟩, ?_⟩
    · rcases ih with ⟨rfl, -⟩ | ⟨⟨e, he, hway⟩, -⟩
      · exact .refl
      · exact .head ⟨_, he⟩ hway
    · rcases ih with ⟨rfl, rfl⟩ | ⟨-, hparent⟩
      · exact ⟨_, hf, rfl⟩
      · exact hparent

theorem Rewrites.not_wraps (hclosed : h₀.Closed) (hr : Rewrites c h₀ ps h)
    (hmem : ∀ q, q ∈ ps ↔ Wraps c h₀ [] root s q) (hroot : root.parent < h₀.length) :
    ¬ Wraps c h [] root s q := by
  rintro ⟨harrives, d, f, hd, hfatal⟩
  obtain ⟨hslot, hf⟩ := diagnosticAt_eq_some.1 hd
  rcases hr.slotAt_cases hslot with ⟨hq, hnot, hold⟩ | ⟨i, hi, rfl⟩ | ⟨i, p, hp, hq, -⟩
  · refine hnot ((hmem q).2 ⟨(hr.arrives hclosed harrives hq hnot).1 hroot, d, ?_⟩)
    have hlt := hclosed.lt hold
    obtain ⟨f', hf', hagrees⟩ := hr.fields d _ (List.getElem?_eq_getElem hlt)
    cases hf.symm.trans hf'
    rw [hagrees.fatal] at hfatal
    exact ⟨_, diagnosticAt_eq_some.2 ⟨hold, List.getElem?_eq_getElem hlt⟩, hfatal⟩
  · obtain ⟨-, e, g, -, -, hwrapper⟩ := hr.wrapped i q hi
    cases hf.symm.trans hwrapper
    rw [fatal_fatalizedWarning] at hfatal
    cases hfatal
  · rcases harrives.ends with ⟨rfl, -⟩ | ⟨-, g, hg, hflag⟩
    · rw [hq] at hroot
      simp only at hroot
      omega
    · obtain ⟨-, e, f', -, -, hwrapper⟩ := hr.wrapped i p hp
      rw [hq] at hg hflag
      cases hg.symm.trans hwrapper
      simp [Fields.isWrapper, fatalizedWarning] at hflag

theorem Rewrites.eq_of_nil (hr : Rewrites c h₀ [] h) : h = h₀ := by
  have hlength : h.length = h₀.length := hr.length
  refine List.ext_getElem hlength fun r hr₁ hr₂ => ?_
  obtain ⟨g, hg, hagrees⟩ := hr.fields r _ (List.getElem?_eq_getElem hr₂)
  have hcontents : g.contents = h₀[r].contents := by
    refine List.ext_getElem hagrees.2 fun i hi₁ hi₂ => ?_
    have hslot := hr.kept ⟨r, i⟩ hr₂ (by simp)
    rw [slotAt, slotAt, Heap.contents_of_get hg,
      Heap.contents_of_get (List.getElem?_eq_getElem hr₂), messageAt, messageAt,
      List.getElem?_eq_getElem hi₁, List.getElem?_eq_getElem hi₂] at hslot
    simpa using hslot
  rw [List.getElem?_eq_getElem hr₁] at hg
  cases hg
  rw [hagrees.1, hcontents]

end Again

section Whole

variable {c : Promotion} {h h' : Heap} {ps : List Position} {p q root : Position} {d e : Nat}
  {f g : Fields} {act : List Nat} {s t : Bool}

def ChildPosition (h : Heap) (root q : Position) : Prop :=
  q = root ∨ ∃ d, slotAt h root = some d ∧ Relation.ReflTransGen (Child h) d q.parent

/-- No hash under the root is under itself. -/
def AcyclicBelow (h : Heap) (root : Position) : Prop :=
  ∀ d e, slotAt h root = some d → Relation.ReflTransGen (Child h) d e →
    ¬ Relation.TransGen (Child h) e e

def Suppressed (h : Heap) (root : Position) (suppressRoot : Bool) (q : Position) : Prop :=
  if q = root then suppressRoot = true
  else ∃ f, h[q.parent]? = some f ∧ f.isWrapper ∧ q.index = 0

/-- A position under the root that holds a fatal warning and is not suppressed. -/
structure Fatalizes (c : Promotion) (h : Heap) (root : Position) (suppressRoot : Bool)
    (q : Position) (d : Nat) (f : Fields) : Prop where
  position : ChildPosition h root q
  holds : diagnosticAt h q = some (d, f)
  warning : f.isWarning
  fatal : c.fatalAll ∨ f.fatalWarning
  noWrapper : ¬ f.isWrapper
  noNote : ¬ f.note
  notSuppressed : ¬ Suppressed h root suppressRoot q

theorem fatal_iff :
    c.fatal f ↔ f.isWarning ∧ (c.fatalAll ∨ f.fatalWarning) ∧ ¬ f.isWrapper ∧ ¬ f.note := by
  simp only [Promotion.fatal, Bool.and_eq_true, Bool.not_eq_true', Bool.or_eq_true,
    Bool.not_eq_true]
  tauto

theorem arrives_below (hway : Relation.ReflTransGen (Child h) d q.parent)
    (hacyclic : ∀ e, Relation.ReflTransGen (Child h) d e → ¬ Relation.TransGen (Child h) e e)
    (hact : ∀ x ∈ act, Relation.TransGen (Child h) x d) (hp : slotAt h p = some d)
    (hq : slotAt h q = some e) (hg : h[q.parent]? = some g) :
    Arrives h q (g.isWrapper && q.index == 0) act p s := by
  induction hway using Relation.ReflTransGen.head_induction_on generalizing act p s with
  | refl =>
    have hnew : q.parent ∉ act := fun hmem => hacyclic _ .refl (hact _ hmem)
    have hchild : Child h q.parent e := ⟨q.index, hq⟩
    have hindex := index_lt_of_slotAt hq
    rw [Heap.contents_of_get hg] at hindex
    refine .down (diagnosticAt_eq_some.2 ⟨hp, hg⟩) hnew hindex (.here hq fun hmem => ?_)
    rcases List.mem_cons.1 hmem with rfl | hmem
    · exact hacyclic _ .refl (.single hchild)
    · exact hacyclic e (.single hchild) (.tail' (hact e hmem).to_reflTransGen hchild)
  | @head d d' hchild hrest ih =>
    obtain ⟨i, hi⟩ := hchild
    have hchild : Child h d d' := ⟨i, hi⟩
    have hnew : d ∉ act := fun hmem => hacyclic _ .refl (hact _ hmem)
    have hlt : d < h.length := parent_lt_of_slotAt hi
    have hf : h[d]? = some h[d] := List.getElem?_eq_getElem hlt
    have hindex := index_lt_of_slotAt hi
    rw [Heap.contents_of_get hf] at hindex
    refine .down (diagnosticAt_eq_some.2 ⟨hp, hf⟩) hnew hindex
      (ih (fun e he => hacyclic e (.head hchild he)) (fun x hx => ?_) hi)
    rcases List.mem_cons.1 hx with rfl | hx
    · exact .single hchild
    · exact (hact x hx).tail hchild

theorem AcyclicBelow.not_below_itself (hacyclic : AcyclicBelow h root)
    (hd : slotAt h root = some d) : ¬ Relation.ReflTransGen (Child h) d root.parent :=
  fun hway => hacyclic d d hd .refl (.tail' hway ⟨root.index, hd⟩)

theorem wraps_iff_fatalizes (hacyclic : AcyclicBelow h root) :
    Wraps c h [] root s q ↔ ∃ d f, Fatalizes c h root s q d f := by
  constructor
  · rintro ⟨harrives, d, f, hd, hfatal⟩
    obtain ⟨hwarning, hfatal, hnoWrapper, hnoNote⟩ := fatal_iff.1 hfatal
    refine ⟨d, f, ?_, hd, hwarning, hfatal, hnoWrapper, hnoNote, ?_⟩
    · exact harrives.ends.imp And.left And.left
    · rcases harrives.ends with ⟨rfl, rfl⟩ | ⟨⟨e, he, hway⟩, g, hg, hflag⟩
      · simp [Suppressed]
      · have hne : q ≠ root := fun heq => hacyclic.not_below_itself he (heq ▸ hway)
        rw [Suppressed, if_neg hne]
        rintro ⟨g', hg', hwrapper, hindex⟩
        cases hg.symm.trans hg'
        simp [hwrapper, hindex] at hflag
  · rintro ⟨d, f, hf⟩
    obtain ⟨hslot, -⟩ := diagnosticAt_eq_some.1 hf.holds
    refine ⟨?_, d, f, hf.holds, fatal_iff.2 ⟨hf.warning, hf.fatal, hf.noWrapper, hf.noNote⟩⟩
    have hnot := hf.notSuppressed
    rcases hf.position with rfl | ⟨e, he, hway⟩
    · rw [Suppressed, if_pos rfl, Bool.not_eq_true] at hnot
      subst hnot
      exact .here hslot List.not_mem_nil
    · have hne : q ≠ root := fun heq => hacyclic.not_below_itself he (heq ▸ hway)
      rw [Suppressed, if_neg hne] at hnot
      have hlt := parent_lt_of_slotAt hslot
      have hg : h[q.parent]? = some h[q.parent] := List.getElem?_eq_getElem hlt
      have harrives : Arrives h q _ [] _ s := arrives_below hway (fun e' => hacyclic e e' he)
        (fun x hx => by simp at hx) he hslot hg
      have hflag : (h[q.parent].isWrapper && q.index == 0) = false := by
        rw [Bool.eq_false_iff]
        intro hflag
        rw [Bool.and_eq_true, beq_iff_eq] at hflag
        exact hnot ⟨_, hg, hflag.1, hflag.2⟩
      rwa [hflag] at harrives

theorem slotAt_of_le (hge : h.length ≤ p.parent) : slotAt h p = none := by
  rw [slotAt, Heap.contents_of_le hge]
  rfl

theorem not_wraps_of_le (hge : h.length ≤ root.parent) : ¬ Wraps c h [] root s q := by
  rintro ⟨harrives, d, f, hd, -⟩
  have hnone := slotAt_of_le hge
  rcases harrives.ends with ⟨rfl, -⟩ | ⟨⟨e, he, -⟩, -⟩
  · cases hnone.symm.trans (diagnosticAt_eq_some.1 hd).1
  · cases hnone.symm.trans he

theorem wrapFatalizedWarningNode_spec (c : Promotion) (hclosed : h.Closed) (root : Position)
    (s : Bool) : ∃ rounds ps h', wrapFatalizedWarningNode rounds c h root s = some h' ∧
      Rewrites c h ps h' ∧ (∀ q, q ∈ ps ↔ Wraps c h [] root s q) := by
  have hwalks : Walks c h [.visit root s] [] [] [] h (Wraps c h [] root s) := by
    rcases Nat.lt_or_ge root.parent h.length with hlt | hge
    · exact visits hclosed _ rfl [] h root s (.refl c h) (fun w hw => by simp at hw) hlt
    · have hstep : walkStep c (.visit root s) ⟨h, []⟩ = (⟨h, []⟩, []) := by
        simp only [walkStep, diagnosticAt, slotAt_of_le hge, Option.bind_none]
      exact Walks.step hstep (Walks.nil (.refl c h) fun q hq => absurd hq (not_wraps_of_le hge))
  obtain ⟨ps, h', hclears, hr, hmem⟩ := hwalks
  obtain ⟨rounds, hrun⟩ := exists_run_iff.2 hclears
  refine ⟨rounds, ps, h', ?_, hr, fun q => by simpa using hmem q⟩
  rw [wrapFatalizedWarningNode, hrun, Option.map_some]

theorem wrapFatalizedWarningNode_again (hclosed : h.Closed) (hr : Rewrites c h ps h')
    (hmem : ∀ q, q ∈ ps ↔ Wraps c h [] root s q) :
    ∃ rounds, wrapFatalizedWarningNode rounds c h' root s = some h' := by
  obtain ⟨rounds, ps', h'', hrun, hr', hmem'⟩ :=
    wrapFatalizedWarningNode_spec c (hr.closed hclosed) root s
  have hnil : ps' = [] := by
    refine List.eq_nil_iff_forall_not_mem.2 fun q hq => ?_
    have hwraps := (hmem' q).1 hq
    rcases Nat.lt_or_ge root.parent h.length with hlt | hge
    · exact hr.not_wraps hclosed hmem hlt hwraps
    · have hnone : ps = [] := List.eq_nil_iff_forall_not_mem.2 fun q hq =>
        not_wraps_of_le hge ((hmem q).1 hq)
      subst hnone
      rw [hr.eq_of_nil] at hwraps
      exact not_wraps_of_le hge hwraps
  subst hnil
  exact ⟨rounds, hr'.eq_of_nil ▸ hrun⟩

theorem Rewrites.owner (hclosed : h.Closed) (hr : Rewrites c h ps h') (hq : q ∈ ps) :
    ∃ w d f, diagnosticAt h q = some (d, f) ∧ h.length ≤ w ∧ slotAt h' q = some w ∧
      h'[w]? = some (fatalizedWarning d f c.reason) ∧ ∀ q', slotAt h' q' = some w → q' = q := by
  obtain ⟨i, hi⟩ := List.mem_iff_getElem?.1 hq
  obtain ⟨hslot, d, f, hd, -, hwrapper⟩ := hr.wrapped i q hi
  refine ⟨h.length + i, d, f, hd, Nat.le_add_right _ _, hslot, hwrapper, fun q' hq' => ?_⟩
  rcases hr.slotAt_cases hq' with ⟨-, -, hold⟩ | ⟨j, hj, hsame⟩ | ⟨j, p, -, -, hold⟩
  · have hlt := hclosed.lt hold
    omega
  · rw [← Nat.add_left_cancel hsame, hi] at hj
    exact (Option.some.inj hj).symm
  · have hlt := hclosed.lt hold
    omega

/-- A heap without dangling references. -/
structure Graph where
  heap : Heap
  closed : heap.Closed

/-- The walk ends; without cycles it wraps fatal warnings where they hang, and changes nothing
else. A second walk changes nothing. -/
theorem fatal_wrapping (graph : Graph) (c : Promotion) (root : Position) (suppressRoot : Bool) :
    ∃ rounds h', wrapFatalizedWarningNode rounds c graph.heap root suppressRoot = some h' ∧
      (∃ rounds', wrapFatalizedWarningNode rounds' c h' root suppressRoot = some h') ∧
      (AcyclicBelow graph.heap root →
        (∀ q d f, Fatalizes c graph.heap root suppressRoot q d f →
          ∃ w, graph.heap.length ≤ w ∧ slotAt h' q = some w ∧
            h'[w]? = some (fatalizedWarning d f c.reason) ∧ ∀ q', slotAt h' q' = some w → q' = q) ∧
        ∀ q, (∀ d f, ¬ Fatalizes c graph.heap root suppressRoot q d f) →
          q.parent < graph.heap.length → slotAt h' q = slotAt graph.heap q) ∧
      ∀ (r : Nat) (f : Fields), graph.heap[r]? = some f → ∃ g, h'[r]? = some g ∧ f.Agrees g := by
  obtain ⟨rounds, ps, h', hrun, hr, hmem⟩ :=
    wrapFatalizedWarningNode_spec c graph.closed root suppressRoot
  refine ⟨rounds, h', hrun, wrapFatalizedWarningNode_again graph.closed hr hmem,
    fun hacyclic => ⟨fun q d f hf => ?_, fun q hq hlt => ?_⟩, hr.fields⟩
  · have hin : q ∈ ps := (hmem q).2 ((wraps_iff_fatalizes hacyclic).2 ⟨d, f, hf⟩)
    obtain ⟨w, d', f', hd', hw, hslot, hwrapper, howner⟩ := hr.owner graph.closed hin
    cases hf.holds.symm.trans hd'
    exact ⟨w, hw, hslot, hwrapper, howner⟩
  · refine hr.kept q hlt fun hin => ?_
    obtain ⟨d, f, hf⟩ := (wraps_iff_fatalizes hacyclic).1 ((hmem q).1 hin)
    exact hq d f hf

end Whole

end XPerl.Diagnostics
