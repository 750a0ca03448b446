import XPerl.Framework.Coding

/-! Splitting a text along fixed pieces and captures that reach up to the next fixed piece. -/

namespace XPerl.Framework.Splitting

variable {α β ι : Type}

/-- A piece of a pattern. -/
inductive Piece (α ι : Type) where
  | fixed (text : List α)
  | capture (name : ι)
  deriving DecidableEq, Repr

def boundary : List (Piece α ι) → Option (List α)
  | [] => none
  | .fixed [] :: pieces => boundary pieces
  | .fixed (a :: text) :: _ => some (a :: text)
  | .capture _ :: _ => none

/-- A text is cut where another one occurs in it for the first time. -/
structure FirstAt (text s u r : List α) : Prop where
  eq : s = u ++ r
  here : text <+: r
  first : ∀ u' r', s = u' ++ r' → text <+: r' → u.length ≤ u'.length

/-- A fixed piece is taken off the front, and a capture takes the shortest text up to the next fixed
piece, or all there is. -/
inductive Splits : List (Piece α ι) → List α → List (ι × List α) → Prop where
  | done : Splits [] [] []
  | fixed {text s : List α} {pieces : List (Piece α ι)} {captures : List (ι × List α)}
      (h : Splits pieces s captures) : Splits (.fixed text :: pieces) (text ++ s) captures
  | rest {name : ι} {s : List α} {pieces : List (Piece α ι)} {captures : List (ι × List α)}
      (hnone : boundary pieces = none) (h : Splits pieces [] captures) :
      Splits (.capture name :: pieces) s ((name, s) :: captures)
  | upTo {name : ι} {text s u r : List α} {pieces : List (Piece α ι)}
      {captures : List (ι × List α)} (hsome : boundary pieces = some text)
      (hfirst : FirstAt text s u r) (h : Splits pieces r captures) :
      Splits (.capture name :: pieces) s ((name, u) :: captures)

/-- The pieces with the captured texts in their places, joined in order. -/
def joined : List (Piece α ι) → List (ι × List α) → List α
  | [], _ => []
  | .fixed text :: pieces, captures => text ++ joined pieces captures
  | .capture _ :: _, [] => []
  | .capture _ :: pieces, (_, u) :: captures => u ++ joined pieces captures

variable {pieces : List (Piece α ι)} {s text : List α}

theorem Splits.joined {captures : List (ι × List α)}
    (h : Splits pieces s captures) : joined pieces captures = s := by
  induction h with
  | done => rfl
  | fixed _ ih => rw [Splitting.joined, ih]
  | rest _ _ ih => rw [Splitting.joined, ih, List.append_nil]
  | upTo _ hfirst _ ih => rw [Splitting.joined, ih, hfirst.eq]

theorem boundary_ne_nil
    (h : boundary pieces = some text) : text ≠ [] := by
  induction pieces with
  | nil => cases h
  | cons piece pieces ih =>
    cases piece with
    | capture name => cases h
    | fixed t =>
      cases t with
      | nil => exact ih h
      | cons a t =>
        cases h
        exact List.cons_ne_nil a t

theorem FirstAt.unique {u r u' r' : List α} (h : FirstAt text s u r)
    (h' : FirstAt text s u' r') : u = u' ∧ r = r' := by
  have hlength : u.length = u'.length :=
    Nat.le_antisymm (h.first u' r' h'.eq h'.here) (h'.first u r h.eq h.here)
  exact List.append_inj (h.eq.symm.trans h'.eq) hlength

section Coded

variable (code : Coding α β)

def Piece.encode : Piece α ι → Piece β ι
  | .fixed text => .fixed (code.encodeAll text)
  | .capture name => .capture name

def encodeCaptures (captures : List (ι × List α)) : List (ι × List β) :=
  captures.map fun capture => (capture.1, code.encodeAll capture.2)

theorem boundary_encode (pieces : List (Piece α ι)) :
    boundary (pieces.map (Piece.encode code)) = (boundary pieces).map code.encodeAll := by
  induction pieces with
  | nil => rfl
  | cons piece pieces ih =>
    cases piece with
    | capture name => rfl
    | fixed text =>
      cases text with
      | nil => exact ih
      | cons a text =>
        obtain ⟨b, bs, hencode, -, -⟩ := code.form a
        have hcons : code.encodeAll (a :: text) = b :: (bs ++ code.encodeAll text) := by
          rw [code.encodeAll_cons, hencode, List.cons_append]
        rw [List.map_cons, Piece.encode, hcons]
        rw [boundary, boundary, Option.map_some, hcons]

variable {text s : List α} {U R : List β}

theorem occurs_in_code (hne : text ≠ [])
    (h : code.encodeAll s = U ++ R) (hR : code.encodeAll text <+: R) :
    ∃ u r, s = u ++ r ∧ U = code.encodeAll u ∧ R = code.encodeAll r ∧ text <+: r := by
  cases text with
  | nil => exact absurd rfl hne
  | cons a text =>
    obtain ⟨b, bs, hencode, hstart, -⟩ := code.form a
    obtain ⟨w, hw⟩ := hR
    rw [code.encodeAll_cons, hencode, List.cons_append, List.cons_append] at hw
    rw [← hw] at h
    obtain ⟨u, r, hs, hU, hr⟩ := code.split_at_start hstart h
    refine ⟨u, r, hs, hU, hw.symm.trans hr, ?_⟩
    apply code.prefix_iff.1
    refine ⟨w, ?_⟩
    rw [← hr, code.encodeAll_cons, hencode]
    simp

theorem length_le_iff_in_code {u r u' r' : List α} (hs : s = u ++ r) (hs' : s = u' ++ r') :
    (code.encodeAll u).length ≤ (code.encodeAll u').length ↔ u.length ≤ u'.length := by
  have hprefix : u <+: s := ⟨r, hs.symm⟩
  have hprefix' : u' <+: s := ⟨r', hs'.symm⟩
  constructor
  · intro h
    rcases Nat.le_total u.length u'.length with hle | hle
    · exact hle
    · have hback := code.prefix_iff.2 (List.prefix_of_prefix_length_le hprefix' hprefix hle)
      have hsame := code.encodeAll_injective (hback.eq_of_length_le h)
      rw [hsame]
  · intro h
    exact (code.prefix_iff.2 (List.prefix_of_prefix_length_le hprefix hprefix' h)).length_le

theorem firstAt_encode (hne : text ≠ []) :
    FirstAt (code.encodeAll text) (code.encodeAll s) U R ↔
      ∃ u r, U = code.encodeAll u ∧ R = code.encodeAll r ∧ FirstAt text s u r := by
  constructor
  · intro h
    obtain ⟨u, r, hs, hU, hR, hhere⟩ := occurs_in_code code hne h.eq h.here
    refine ⟨u, r, hU, hR, hs, hhere, ?_⟩
    intro u' r' hs' hhere'
    have hU' : code.encodeAll s = code.encodeAll u' ++ code.encodeAll r' := by
      rw [hs', code.encodeAll_append]
    have hle := h.first _ _ hU' (code.prefix_iff.2 hhere')
    rw [hU] at hle
    exact (length_le_iff_in_code code hs hs').1 hle
  · intro h
    obtain ⟨u, r, rfl, rfl, h⟩ := h
    refine ⟨by rw [h.eq, code.encodeAll_append], code.prefix_iff.2 h.here, ?_⟩
    intro U' R' hsplit hhere
    obtain ⟨u', r', hs', rfl, rfl, hhere'⟩ := occurs_in_code code hne hsplit hhere
    exact (length_le_iff_in_code code h.eq hs').2 (h.first u' r' hs' hhere')

theorem splits_encode {pieces : List (Piece α ι)} {C : List (ι × List β)} :
    Splits (pieces.map (Piece.encode code)) (code.encodeAll s) C ↔
      ∃ captures, C = encodeCaptures code captures ∧ Splits pieces s captures := by
  constructor
  · intro h
    induction pieces generalizing s C with
    | nil =>
      rw [List.map_nil] at h
      generalize hS : code.encodeAll s = S at h
      cases h with
      | done =>
        cases s with
        | nil => exact ⟨[], rfl, Splits.done⟩
        | cons a s => exact absurd hS (code.encodeAll_ne_nil (List.cons_ne_nil a s))
    | cons piece pieces ih =>
      rw [List.map_cons] at h
      cases piece with
      | fixed text =>
        rw [Piece.encode] at h
        generalize hS : code.encodeAll s = S at h
        cases h with
        | @fixed _ S' _ _ h =>
          obtain ⟨v, rfl⟩ := code.prefix_iff.1 ⟨S', hS.symm⟩
          rw [code.encodeAll_append] at hS
          rw [← List.append_cancel_left hS] at h
          obtain ⟨captures, hC, hsplits⟩ := ih h
          exact ⟨captures, hC, Splits.fixed hsplits⟩
      | capture name =>
        rw [Piece.encode] at h
        cases h with
        | @rest _ _ _ C' hnone h =>
          rw [boundary_encode, Option.map_eq_none_iff] at hnone
          obtain ⟨captures, rfl, hsplits⟩ := ih (s := []) h
          exact ⟨(name, s) :: captures, rfl, Splits.rest hnone hsplits⟩
        | @upTo _ T _ U R _ C' hsome hfirst h =>
          rw [boundary_encode, Option.map_eq_some_iff] at hsome
          obtain ⟨text, hsome, rfl⟩ := hsome
          obtain ⟨u, r, rfl, rfl, hfirst'⟩ :=
            (firstAt_encode code (boundary_ne_nil hsome)).1 hfirst
          obtain ⟨captures, rfl, hsplits⟩ := ih h
          exact ⟨(name, u) :: captures, rfl, Splits.upTo hsome hfirst' hsplits⟩
  · intro h
    obtain ⟨captures, rfl, h⟩ := h
    induction h with
    | done => exact Splits.done
    | fixed _ ih =>
      rw [code.encodeAll_append]
      exact Splits.fixed ih
    | rest hnone _ ih =>
      apply Splits.rest _ ih
      rw [boundary_encode, hnone]
      rfl
    | upTo hsome hfirst _ ih =>
      refine Splits.upTo ?_ ((firstAt_encode code (boundary_ne_nil hsome)).2
        ⟨_, _, rfl, rfl, hfirst⟩) ih
      rw [boundary_encode, hsome]
      rfl

end Coded

end XPerl.Framework.Splitting
