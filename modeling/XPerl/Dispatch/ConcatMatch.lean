import XPerl.Dispatch.Concat
import XPerl.Framework.Splitting

/-! A concatenated string shape splits its subject, character by character. -/

namespace XPerl.Dispatch

open XPerl.Utf8 XPerl.Framework XPerl.Framework.Splitting

mutual

/-- The operands from left to right. -/
def leaves : Node → List Part
  | .part p => [p]
  | .concat child => leavesKids child

def leavesKids : List Node → List Part
  | [] => []
  | part :: child => leaves part ++ leavesKids child

end

mutual

theorem concatCount_eq : (node : Node) → concatCount node = (leaves node).length
  | .part _ => rfl
  | .concat child => concatCountKids_eq child

theorem concatCountKids_eq :
    (child : List Node) → concatCountKids child = (leavesKids child).length
  | [] => rfl
  | part :: child => by
    rw [concatCountKids, leavesKids, List.length_append, concatCount_eq part,
      concatCountKids_eq child]

end

mutual

theorem concatFlatten_eq (max : Nat) : (node : Node) → (parts : List Part) →
    parts.length + (leaves node).length ≤ max →
    concatFlatten max node parts = some (parts ++ leaves node)
  | .part p, parts, h => by
    have hroom : ¬ parts.length ≥ max := by
      rw [leaves, List.length_singleton] at h
      omega
    rw [concatFlatten, if_neg hroom, leaves]
  | .concat child, parts, h => concatFlattenKids_eq max child parts h

theorem concatFlattenKids_eq (max : Nat) : (child : List Node) → (parts : List Part) →
    parts.length + (leavesKids child).length ≤ max →
    concatFlattenKids max child parts = some (parts ++ leavesKids child)
  | [], parts, _ => by rw [concatFlattenKids, leavesKids, List.append_nil]
  | part :: child, parts, h => by
    rw [leavesKids, List.length_append] at h
    have hkids := concatFlattenKids_eq max child (parts ++ leaves part)
      (by rw [List.length_append]; omega)
    rw [concatFlattenKids, concatFlatten_eq max part parts (by omega)]
    simp only [hkids, leavesKids, List.append_assoc]

end

def seeAll (parts : List Part) (b : Boundaries) : Except ConcatError Boundaries :=
  parts.foldlM Boundaries.see b

theorem seeAll_append (parts parts' : List Part) (b : Boundaries) :
    seeAll (parts ++ parts') b = seeAll parts b >>= seeAll parts' := List.foldlM_append

mutual

theorem validateConcatBoundaries_eq : (node : Node) → (b : Boundaries) →
    validateConcatBoundaries node b = seeAll (leaves node) b
  | .part p, b => by
    rw [validateConcatBoundaries, leaves, seeAll, List.foldlM_cons]
    simp
  | .concat child, b => validateBoundariesKids_eq child b

theorem validateBoundariesKids_eq : (child : List Node) → (b : Boundaries) →
    validateBoundariesKids child b = seeAll (leavesKids child) b
  | [], b => rfl
  | part :: child, b => by
    rw [validateBoundariesKids, leavesKids, seeAll_append, validateConcatBoundaries_eq part]
    apply bind_congr
    intro b'
    exact validateBoundariesKids_eq child b'

end

mutual

theorem validateConcat_ok : (node : Node) → validateConcat node = .ok () →
    Part.other ∉ leaves node ∧ leaves node ≠ []
  | .part .other, h => by cases h
  | .part (.const _), _ => by simp [leaves]
  | .part (.padsv _), _ => by simp [leaves]
  | .part (.pin _), _ => by simp [leaves]
  | .concat [], h => by cases h
  | .concat (kid :: kids), h => by
    rw [validateConcat] at h
    cases hkid : validateConcat kid with
    | error e =>
      rw [hkid] at h
      cases h
    | ok u =>
      rw [hkid] at h
      obtain ⟨hother, hne⟩ := validateConcat_ok kid hkid
      have hothers := validateConcatKids_ok kids h
      simp [leaves, leavesKids, hother, hothers, hne]

theorem validateConcatKids_ok : (kids : List Node) → validateConcatKids kids = .ok () →
    Part.other ∉ leavesKids kids
  | [], _ => by simp [leavesKids]
  | kid :: kids, h => by
    rw [validateConcatKids] at h
    cases hkid : validateConcat kid with
    | error e =>
      rw [hkid] at h
      cases h
    | ok u =>
      rw [hkid] at h
      have hothers := validateConcatKids_ok kids h
      simp [leavesKids, (validateConcat_ok kid hkid).1, hothers]

end

section Merging

variable (inBytes : Bool) (pad : Nat → Pv)

def fixedText : Part → List U8
  | .const sv => normalized inBytes sv
  | .pin padix => normalized inBytes (pad padix)
  | _ => []

variable {parts : List Part}

theorem fixedValues_eq (h : Part.other ∉ parts) :
    fixedValues inBytes pad parts =
      .ok (parts.map fun part => ⟨part, fixedText inBytes pad part⟩) := by
  induction parts with
  | nil => rfl
  | cons part parts ih =>
    obtain ⟨hne, hrest⟩ := not_or.1 (mt List.mem_cons.2 h)
    rw [fixedValues, ih hrest]
    cases part with
    | const sv => rfl
    | padsv padix => rfl
    | pin padix => rfl
    | other => exact absurd rfl hne

def literalText : List Part → List U8
  | .const sv :: parts => normalized inBytes sv ++ literalText parts
  | _ => []

def pending (inRun : Bool) : List Part → List Fragment
  | [] => []
  | .const sv :: parts =>
    ⟨.const sv, if inRun then [] else normalized inBytes sv⟩ :: pending inRun parts
  | part :: parts => ⟨part, fixedText inBytes pad part⟩ :: pending false parts

def merged (inRun : Bool) : List Part → List Fragment
  | [] => []
  | .const sv :: parts =>
    ⟨.const sv, if inRun then [] else normalized inBytes sv ++ literalText inBytes parts⟩ ::
      merged true parts
  | part :: parts => ⟨part, fixedText inBytes pad part⟩ :: merged false parts

theorem pending_false (parts : List Part) : pending inBytes pad false parts =
    parts.map fun part => ⟨part, fixedText inBytes pad part⟩ := by
  induction parts with
  | nil => rfl
  | cons part parts ih => cases part <;> simp [pending, fixedText, ih]

theorem length_pending (inRun : Bool) (parts : List Part) :
    (pending inBytes pad inRun parts).length = parts.length := by
  induction parts generalizing inRun with
  | nil => rfl
  | cons part parts ih => cases part <;> simp [pending, ih]

theorem mergeRun_pending (inRun : Bool) (text : List U8) (parts : List Part) :
    mergeRun text (pending inBytes pad inRun parts) =
      (text ++ (if inRun then [] else literalText inBytes parts),
        pending inBytes pad true parts) := by
  induction parts generalizing text with
  | nil => cases inRun <;> simp [pending, mergeRun, literalText]
  | cons part parts ih =>
    cases part with
    | const sv => cases inRun <;> simp [pending, mergeRun, isLiteral, ih, literalText]
    | padsv padix => cases inRun <;> simp [pending, mergeRun, isLiteral, literalText]
    | pin padix => cases inRun <;> simp [pending, mergeRun, isLiteral, literalText]
    | other => cases inRun <;> simp [pending, mergeRun, isLiteral, literalText]

theorem mergeLiterals_pending (n : Nat) (inRun : Bool)
    (h : parts.length ≤ n) :
    mergeLiterals n (pending inBytes pad inRun parts) = merged inBytes pad inRun parts := by
  induction parts generalizing n inRun with
  | nil => cases n <;> rfl
  | cons part parts ih =>
    cases n with
    | zero => simp at h
    | succ n =>
      have hle : parts.length ≤ n := by simpa using h
      cases part with
      | const sv =>
        cases inRun <;>
          simp [pending, mergeLiterals, isLiteral, mergeRun_pending, merged, ih n true hle]
      | padsv padix => simp [pending, mergeLiterals, isLiteral, merged, ih n false hle]
      | pin padix => simp [pending, mergeLiterals, isLiteral, merged, ih n false hle]
      | other => simp [pending, mergeLiterals, isLiteral, merged, ih n false hle]

end Merging

def Fragment.piece (f : Fragment) : Piece U8 Nat :=
  match f.part with
  | .padsv padix => .capture padix
  | _ => .fixed f.fixed

section Boundaries

theorem nextBoundary_eq {fragments : List Fragment} {text : Option (List U8)}
    (h : nextBoundary fragments = .ok text) : boundary (fragments.map Fragment.piece) = text := by
  induction fragments with
  | nil =>
    cases h
    rfl
  | cons f fragments ih =>
    obtain ⟨part, fixed⟩ := f
    rw [nextBoundary] at h
    cases part with
    | padsv padix => cases h
    | const sv | pin padix | other =>
      cases fixed with
      | nil => exact ih h
      | cons b bs =>
        cases h
        rfl

variable {inBytes : Bool} {pad : Nat → Pv}

theorem normalized_eq_nil (sv : Pv) : normalized inBytes sv = [] ↔ sv.pv = [] := by
  cases inBytes with
  | true => exact Iff.rfl
  | false =>
    cases sv with
    | utf8 chars => exact Iff.rfl
    | bytes pv =>
      change upgrade pv = [] ↔ pv = []
      cases pv with
      | nil => exact iff_of_true rfl rfl
      | cons c pv =>
        rw [upgrade_eq]
        apply iff_of_false
        · exact characters.encodeAll_ne_nil (List.cons_ne_nil _ _)
        · exact List.cons_ne_nil c pv

variable {part : Part} {parts : List Part} {b : Boundaries}

theorem nextBoundary_nil (h : isCapture part = false) (fragments : List Fragment) :
    nextBoundary (⟨part, []⟩ :: fragments) = nextBoundary fragments := by
  simp [nextBoundary, h]

theorem nextBoundary_of_ne_nil (h : isCapture part = false) {fixed : List U8}
    (hne : fixed ≠ []) (fragments : List Fragment) :
    nextBoundary (⟨part, fixed⟩ :: fragments) = .ok (some fixed) := by
  simp [nextBoundary, h, hne]
  rfl

theorem nextBoundary_ok (inBytes : Bool) (pad : Nat → Pv) (inRun : Bool)
    (hrun : inRun = true → literalText inBytes parts = [])
    (h : seeAll parts ⟨true, false⟩ = .ok b) :
    ∃ text, nextBoundary (merged inBytes pad inRun parts) = .ok text := by
  induction parts generalizing inRun with
  | nil => exact ⟨none, rfl⟩
  | cons part parts ih =>
    rw [seeAll, List.foldlM_cons] at h
    cases part with
    | padsv padix => cases h
    | const sv =>
      rw [merged]
      by_cases hempty : sv.pv = []
      · have htext : normalized inBytes sv = [] := (normalized_eq_nil sv).2 hempty
        have hsee : Boundaries.see ⟨true, false⟩ (.const sv) = .ok ⟨true, false⟩ := by
          rw [Boundaries.see, hempty]
          rfl
        rw [hsee] at h
        rw [literalText, htext, List.nil_append] at hrun
        rw [htext, List.nil_append]
        by_cases hfixed : (if inRun = true then [] else literalText inBytes parts) = []
        · rw [hfixed, nextBoundary_nil rfl]
          apply ih true _ h
          intro _
          cases inRun with
          | true => exact hrun rfl
          | false => exact hfixed
        · exact ⟨_, nextBoundary_of_ne_nil rfl hfixed _⟩
      · have htext : normalized inBytes sv ++ literalText inBytes parts ≠ [] := by
          intro hnil
          exact hempty ((normalized_eq_nil sv).1 (List.append_eq_nil_iff.1 hnil).1)
        cases inRun with
        | true => exact absurd (hrun rfl) htext
        | false => exact ⟨_, nextBoundary_of_ne_nil rfl htext _⟩
    | pin padix =>
      have hrest := ih false (by simp) h
      change ∃ text, nextBoundary (⟨.pin padix, fixedText inBytes pad (.pin padix)⟩ ::
        merged inBytes pad false parts) = .ok text
      by_cases hfixed : fixedText inBytes pad (.pin padix) = []
      · rw [hfixed, nextBoundary_nil rfl]
        exact hrest
      · exact ⟨_, nextBoundary_of_ne_nil rfl hfixed _⟩
    | other => exact ih false (by simp) h

/-- The variables that are captured into. -/
def captures : List Part → List Nat
  | [] => []
  | .padsv padix :: parts => padix :: captures parts
  | _ :: parts => captures parts

theorem validateCaptures_merged {inRun : Bool} {b' : Boundaries}
    (seen : List Nat) (h : seeAll parts b = .ok b') :
    validateCaptures seen (merged inBytes pad inRun parts) =
      if (captures parts).Nodup ∧ ∀ padix ∈ captures parts, padix ∉ seen then .ok ()
      else .error .duplicateCapture := by
  induction parts generalizing inRun b seen with
  | nil => simp [merged, validateCaptures, captures]; rfl
  | cons part parts ih =>
    rw [seeAll, List.foldlM_cons] at h
    cases part with
    | const sv =>
      have hsee : ∃ b'', Boundaries.see b (.const sv) = .ok b'' := by
        rw [Boundaries.see]
        exact ⟨_, rfl⟩
      obtain ⟨b'', hsee⟩ := hsee
      rw [hsee] at h
      exact ih seen h
    | pin padix => exact ih seen h
    | other => exact ih seen h
    | padsv padix =>
      have hsee : Boundaries.see b (.padsv padix) = .ok ⟨true, false⟩ := by
        rw [Boundaries.see] at h ⊢
        split_ifs at h ⊢ with hmissing
        · cases h
        · rfl
      rw [hsee] at h
      have h' : seeAll parts ⟨true, false⟩ = .ok b' := h
      obtain ⟨text, hnext⟩ := nextBoundary_ok inBytes pad false (by simp) h'
      have hunfold : validateCaptures seen (merged inBytes pad inRun (.padsv padix :: parts)) =
          if padix ∈ seen then .error .duplicateCapture
          else validateCaptures (padix :: seen) (merged inBytes pad false parts) := by
        change (if padix ∈ seen then throw ConcatError.duplicateCapture else do
          let _ ← nextBoundary (merged inBytes pad false parts)
          validateCaptures (padix :: seen) (merged inBytes pad false parts)) = _
        rw [hnext]
        rfl
      rw [hunfold, ih (padix :: seen) h']
      by_cases hseen : padix ∈ seen
      · rw [if_pos hseen, if_neg]
        intro hall
        exact hall.2 padix (List.mem_cons_self) hseen
      · rw [if_neg hseen]
        congr 1
        rw [captures, List.nodup_cons]
        simp only [List.mem_cons, forall_eq_or_imp, not_or, eq_iff_iff]
        constructor
        · intro hall
          obtain ⟨hnodup, hnew⟩ := hall
          refine ⟨⟨fun hmem => (hnew padix hmem).1 rfl, hnodup⟩, hseen, ?_⟩
          intro x hx
          exact (hnew x hx).2
        · intro hall
          obtain ⟨⟨hnot, hnodup⟩, -, hnew⟩ := hall
          refine ⟨hnodup, ?_⟩
          intro x hx
          refine ⟨?_, hnew x hx⟩
          intro heq
          exact hnot (heq ▸ hx)

end Boundaries

section Matching

variable {subject text : List U8} {start stop cursor n pos : Nat}

theorem here_iff (subject text : List U8) (pos : Nat) :
    (subject.drop pos).take text.length = text ↔ text <+: subject.drop pos := by
  rw [List.prefix_iff_eq_take, eq_comm]

theorem scanFind_some (h : scanFind subject text n pos = some stop) :
    pos ≤ stop ∧ text <+: subject.drop stop ∧
      ∀ q, pos ≤ q → q < stop → ¬ text <+: subject.drop q := by
  induction n generalizing pos with
  | zero => cases h
  | succ n ih =>
    rw [scanFind] at h
    by_cases hhere : (subject.drop pos).take text.length = text
    · rw [if_pos hhere] at h
      cases h
      exact ⟨Nat.le_refl _, (here_iff _ _ _).1 hhere, fun q hle hlt => by omega⟩
    · rw [if_neg hhere] at h
      obtain ⟨hle, hstop, hno⟩ := ih h
      refine ⟨by omega, hstop, ?_⟩
      intro q hq hlt
      rcases Nat.eq_or_lt_of_le hq with rfl | hlater
      · exact mt (here_iff _ _ _).2 hhere
      · exact hno q hlater hlt

theorem scanFind_none (h : scanFind subject text n pos = none) :
    ∀ q, pos ≤ q → q < pos + n → ¬ text <+: subject.drop q := by
  induction n generalizing pos with
  | zero => exact fun q hle hlt => by omega
  | succ n ih =>
    rw [scanFind] at h
    by_cases hhere : (subject.drop pos).take text.length = text
    · rw [if_pos hhere] at h
      cases h
    · rw [if_neg hhere] at h
      intro q hq hlt
      rcases Nat.eq_or_lt_of_le hq with rfl | hlater
      · exact mt (here_iff _ _ _).2 hhere
      · exact ih h q hlater (by omega)

theorem room_of_here (hne : text ≠ []) (h : text <+: subject.drop pos) :
    pos + text.length ≤ subject.length := by
  have hlength := h.length_le
  have hpos := List.length_pos_iff.2 hne
  rw [List.length_drop] at hlength
  omega

theorem concatFind_some (hne : text ≠ []) (h : concatFind subject start text = some stop) :
    start ≤ stop ∧ stop ≤ subject.length ∧
      FirstAt text (subject.drop start) ((subject.drop start).take (stop - start))
        (subject.drop stop) := by
  have hpos := List.length_pos_iff.2 hne
  rw [concatFind, if_neg (by omega)] at h
  split_ifs at h with hroom
  obtain ⟨hle, hhere, hno⟩ := scanFind_some h
  have hstop := room_of_here hne hhere
  refine ⟨hle, by omega, ?_, hhere, ?_⟩
  · have hdrop : (subject.drop start).drop (stop - start) = subject.drop stop := by
      rw [List.drop_drop]
      congr 1
      omega
    rw [← hdrop, List.take_append_drop]
  · intro u' r' hsplit hhere'
    by_contra hlt
    rw [List.length_take, List.length_drop] at hlt
    have hr : r' = subject.drop (start + u'.length) := by
      rw [← List.drop_drop, hsplit, List.drop_left]
    rw [hr] at hhere'
    exact hno (start + u'.length) (by omega) (by omega) hhere'

variable {u s : List U8} {utf8 : Bool} {pieces : List (Piece U8 Nat)} {bindings : List Captured}
  {padix : Nat} {f : Fragment} {fragments : List Fragment}

theorem concatFind_none (hne : text ≠ []) (h : concatFind subject start text = none)
    {r : List U8} (hsplit : subject.drop start = u ++ r) : ¬ text <+: r := by
  intro hhere
  have hpos := List.length_pos_iff.2 hne
  have hr : r = subject.drop (start + u.length) := by
    rw [← List.drop_drop, hsplit, List.drop_left]
  rw [hr] at hhere
  have hroom := room_of_here hne hhere
  rw [concatFind, if_neg (by omega), if_neg (by omega)] at h
  exact scanFind_none h (start + u.length) (by omega) (by omega) hhere

def bound (utf8 : Bool) (captures : List (Nat × List U8)) : List Captured :=
  captures.map fun capture => ⟨capture.1, capture.2, utf8⟩

def Returns (utf8 : Bool) (pieces : List (Piece U8 Nat)) (s : List U8) (bindings : List Captured)
    (r : Except ConcatError (Bool × List Captured)) : Prop :=
  ∃ matched bs, r = .ok (matched, bindings ++ bs) ∧
    (matched = true → ∃ captures, bs = bound utf8 captures ∧ Splits pieces s captures) ∧
    (matched = false → ∀ captures, ¬ Splits pieces s captures)

theorem Returns.failed (h : ∀ captures, ¬ Splits pieces s captures) :
    Returns utf8 pieces s bindings (.ok (false, bindings)) :=
  ⟨false, [], by rw [List.append_nil], by simp, fun _ => h⟩

theorem Returns.fixed {r : Except ConcatError (Bool × List Captured)}
    (h : Returns utf8 pieces s bindings r) (text : List U8) :
    Returns utf8 (.fixed text :: pieces) (text ++ s) bindings r := by
  obtain ⟨matched, bs, hr, hsome, hnone⟩ := h
  refine ⟨matched, bs, hr, ?_, ?_⟩
  · intro hmatched
    obtain ⟨captures, hbs, hsplits⟩ := hsome hmatched
    exact ⟨captures, hbs, Splits.fixed hsplits⟩
  · intro hmatched captures hsplits
    generalize hs : text ++ s = s' at hsplits
    cases hsplits with
    | fixed h =>
      rw [← List.append_cancel_left hs] at h
      exact hnone hmatched captures h

theorem Returns.capture {rest : List U8} {r : Except ConcatError (Bool × List Captured)}
    (h : Returns utf8 pieces rest (bindings ++ [⟨padix, u, utf8⟩]) r)
    (hcut : ∀ captures, Splits (.capture padix :: pieces) s captures ↔
      ∃ captures', captures = (padix, u) :: captures' ∧ Splits pieces rest captures') :
    Returns utf8 (.capture padix :: pieces) s bindings r := by
  obtain ⟨matched, bs, hr, hsome, hnone⟩ := h
  refine ⟨matched, ⟨padix, u, utf8⟩ :: bs, by rw [hr, List.append_assoc]; rfl, ?_, ?_⟩
  · intro hmatched
    obtain ⟨captures, rfl, hsplits⟩ := hsome hmatched
    exact ⟨(padix, u) :: captures, rfl, (hcut _).2 ⟨captures, rfl, hsplits⟩⟩
  · intro hmatched captures hsplits
    obtain ⟨captures', -, hsplits'⟩ := (hcut captures).1 hsplits
    exact hnone hmatched captures' hsplits'

theorem splits_rest (hnone : boundary pieces = none) (padix : Nat)
    (s : List U8) (captures : List (Nat × List U8)) :
    Splits (.capture padix :: pieces) s captures ↔
      ∃ captures', captures = (padix, s) :: captures' ∧ Splits pieces [] captures' := by
  constructor
  · intro h
    cases h with
    | rest _ h => exact ⟨_, rfl, h⟩
    | upTo hsome _ _ =>
      rw [hnone] at hsome
      cases hsome
  · intro h
    obtain ⟨captures', rfl, h⟩ := h
    exact Splits.rest hnone h

theorem splits_upTo {r : List U8}
    (hsome : boundary pieces = some text) (hfirst : FirstAt text s u r) (padix : Nat)
    (captures : List (Nat × List U8)) :
    Splits (.capture padix :: pieces) s captures ↔
      ∃ captures', captures = (padix, u) :: captures' ∧ Splits pieces r captures' := by
  constructor
  · intro h
    cases h with
    | rest hnone _ =>
      rw [hsome] at hnone
      cases hnone
    | upTo hsome' hfirst' h =>
      rw [hsome] at hsome'
      cases hsome'
      obtain ⟨rfl, rfl⟩ := hfirst.unique hfirst'
      exact ⟨_, rfl, h⟩
  · intro h
    obtain ⟨captures', rfl, h⟩ := h
    exact Splits.upTo hsome hfirst h

theorem matchFragments_fixed (utf8 : Bool) (hpiece : f.piece = .fixed f.fixed)
    (fragments : List Fragment) (cursor : Nat) (bindings : List Captured) :
    matchFragments utf8 subject (f :: fragments) cursor bindings =
      if cursor > subject.length ∨ f.fixed.length > subject.length - cursor ∨
          (subject.drop cursor).take f.fixed.length ≠ f.fixed then
        .ok (false, bindings)
      else matchFragments utf8 subject fragments (cursor + f.fixed.length) bindings := by
  obtain ⟨part, fixed⟩ := f
  cases part with
  | padsv padix => cases hpiece
  | const sv => rfl
  | pin padix => rfl
  | other => rfl

theorem matchFragments_capture (utf8 : Bool)
    (hpart : f.part = .padsv padix) {next : Option (List U8)}
    (hnext : nextBoundary fragments = .ok next) (bindings : List Captured)
    (hstop : next.elim (some subject.length) (concatFind subject cursor) = some stop) :
    matchFragments utf8 subject (f :: fragments) cursor bindings =
      matchFragments utf8 subject fragments stop
        (bindings ++ [⟨padix, (subject.drop cursor).take (stop - cursor), utf8⟩]) := by
  rw [matchFragments, hpart]
  cases next with
  | none =>
    cases hstop
    simp only [hnext]
    rfl
  | some text =>
    have hfind : concatFind subject cursor text = some stop := hstop
    simp [hnext, hfind, bind, Except.bind, pure, Except.pure]

theorem matchFragments_missing (utf8 : Bool)
    (hpart : f.part = .padsv padix)
    (hnext : nextBoundary fragments = .ok (some text)) (bindings : List Captured)
    (hfind : concatFind subject cursor text = none) :
    matchFragments utf8 subject (f :: fragments) cursor bindings = .ok (false, bindings) := by
  rw [matchFragments, hpart]
  simp [hnext, hfind, bind, Except.bind, pure, Except.pure]

theorem validateCaptures_fixed (hpiece : f.piece = .fixed f.fixed)
    (seen : List Nat) (fragments : List Fragment) :
    validateCaptures seen (f :: fragments) = validateCaptures seen fragments := by
  obtain ⟨part, fixed⟩ := f
  cases part with
  | padsv padix => cases hpiece
  | const sv => rfl
  | pin padix => rfl
  | other => rfl

theorem matchFragments_spec (utf8 : Bool) {seen : List Nat}
    (hvalid : validateCaptures seen fragments = .ok ()) (hcursor : cursor ≤ subject.length)
    (bindings : List Captured) :
    Returns utf8 (fragments.map Fragment.piece) (subject.drop cursor) bindings
      (matchFragments utf8 subject fragments cursor bindings) := by
  induction fragments generalizing seen cursor bindings with
  | nil =>
    refine ⟨cursor == subject.length, [], by rw [List.append_nil]; rfl, ?_, ?_⟩
    · intro hmatched
      have hend : subject.drop cursor = [] := List.drop_eq_nil_of_le (by
        rw [beq_iff_eq] at hmatched
        omega)
      rw [hend]
      exact ⟨[], rfl, Splits.done⟩
    · intro hmatched captures hsplits
      rw [beq_eq_false_iff_ne] at hmatched
      generalize hs : subject.drop cursor = s at hsplits
      cases hsplits
      rw [List.drop_eq_nil_iff] at hs
      omega
  | cons f fragments ih =>
    by_cases hcapture : ∃ padix, f.part = .padsv padix
    · obtain ⟨padix, hpart⟩ := hcapture
      have hpiece : f.piece = .capture padix := by rw [Fragment.piece, hpart]
      rw [validateCaptures, hpart] at hvalid
      simp only at hvalid
      split_ifs at hvalid with hseen
      cases hnext : nextBoundary fragments with
      | error e =>
        rw [hnext] at hvalid
        cases hvalid
      | ok text =>
        rw [hnext] at hvalid
        have hvalid' : validateCaptures (padix :: seen) fragments = .ok () := hvalid
        have hboundary := nextBoundary_eq hnext
        rw [List.map_cons, hpiece]
        cases text with
        | none =>
          have hrest := ih hvalid' (Nat.le_refl subject.length)
            (bindings ++ [⟨padix, (subject.drop cursor).take (subject.length - cursor), utf8⟩])
          have htake : (subject.drop cursor).take (subject.length - cursor) =
              subject.drop cursor := by
            rw [← List.length_drop, List.take_length]
          rw [matchFragments_capture utf8 hpart hnext bindings rfl]
          rw [List.drop_length, htake] at hrest
          rw [htake]
          exact hrest.capture (splits_rest hboundary padix _)
        | some text =>
          have hne := boundary_ne_nil hboundary
          cases hfind : concatFind subject cursor text with
          | none =>
            rw [matchFragments_missing utf8 hpart hnext bindings hfind]
            apply Returns.failed
            intro captures hsplits
            cases hsplits with
            | rest hnone _ =>
              rw [hboundary] at hnone
              cases hnone
            | upTo hsome hfirst _ =>
              rw [hboundary] at hsome
              cases hsome
              exact concatFind_none hne hfind hfirst.eq hfirst.here
          | some stop =>
            obtain ⟨-, hstop, hfirst⟩ := concatFind_some hne hfind
            rw [matchFragments_capture utf8 hpart hnext bindings hfind]
            exact (ih hvalid' hstop _).capture (splits_upTo hboundary hfirst padix)
    · have hpiece : f.piece = .fixed f.fixed := by
        rw [Fragment.piece]
        split
        · rename_i padix hpart
          exact absurd ⟨padix, hpart⟩ hcapture
        · rfl
      rw [validateCaptures_fixed hpiece] at hvalid
      rw [matchFragments_fixed utf8 hpiece, List.map_cons, hpiece]
      split_ifs with hfails
      · apply Returns.failed
        intro captures hsplits
        generalize hs : subject.drop cursor = s at hsplits
        cases hsplits with
        | @fixed _ s _ _ h =>
          have hprefix : f.fixed <+: subject.drop cursor := ⟨s, hs.symm⟩
          have hlength := hprefix.length_le
          have htake := (here_iff subject f.fixed cursor).2 hprefix
          rw [List.length_drop] at hlength
          rcases hfails with hfails | hfails | hfails
          · omega
          · omega
          · exact hfails htake
      · rw [not_or, not_or, not_not] at hfails
        obtain ⟨-, hroom, htake⟩ := hfails
        have hdrop : subject.drop cursor =
            f.fixed ++ subject.drop (cursor + f.fixed.length) := by
          rw [← List.drop_drop]
          conv_rhs => lhs; rw [← htake]
          exact (List.take_append_drop _ _).symm
        rw [hdrop]
        exact (ih hvalid (by omega) bindings).fixed f.fixed

end Matching

def Fragment.ofPiece : Piece U8 Nat → Fragment
  | .capture padix => ⟨.padsv padix, []⟩
  | .fixed text => ⟨.const (.bytes []), text⟩

theorem nextBoundary_pieces (fragments : List Fragment) :
    nextBoundary fragments =
      nextBoundary ((fragments.map Fragment.piece).map Fragment.ofPiece) := by
  induction fragments with
  | nil => rfl
  | cons f fragments ih =>
    obtain ⟨part, fixed⟩ := f
    cases part <;> simp [nextBoundary, Fragment.piece, Fragment.ofPiece, isCapture, ih]

theorem validateCaptures_pieces (seen : List Nat) (fragments : List Fragment) :
    validateCaptures seen fragments =
      validateCaptures seen ((fragments.map Fragment.piece).map Fragment.ofPiece) := by
  induction fragments generalizing seen with
  | nil => rfl
  | cons f fragments ih =>
    obtain ⟨part, fixed⟩ := f
    cases part with
    | padsv padix =>
      simp only [List.map_cons, Fragment.piece, Fragment.ofPiece, validateCaptures,
        ← nextBoundary_pieces, ← ih]
    | const sv => exact ih seen
    | pin padix => exact ih seen
    | other => exact ih seen

theorem matchFragments_pieces (utf8 : Bool) (subject : List U8) (fragments : List Fragment)
    (cursor : Nat) (bindings : List Captured) :
    matchFragments utf8 subject fragments cursor bindings =
      matchFragments utf8 subject ((fragments.map Fragment.piece).map Fragment.ofPiece) cursor
        bindings := by
  induction fragments generalizing cursor bindings with
  | nil => rfl
  | cons f fragments ih =>
    obtain ⟨part, fixed⟩ := f
    cases part <;>
      simp only [List.map_cons, Fragment.piece, Fragment.ofPiece, matchFragments,
        ← nextBoundary_pieces, ← ih]

def runChars : List Part → List CodePoint
  | .const sv :: parts => sv.chars ++ runChars parts
  | _ => []

/-- The operands as pieces. A run of literals is one piece at the first of them; the others are
empty. -/
def pieces (pad : Nat → Pv) (inRun : Bool) : List Part → List (Piece CodePoint Nat)
  | [] => []
  | .const sv :: parts =>
    .fixed (if inRun then [] else sv.chars ++ runChars parts) :: pieces pad true parts
  | .padsv padix :: parts => .capture padix :: pieces pad false parts
  | .pin padix :: parts => .fixed (pad padix).chars :: pieces pad false parts
  | .other :: parts => .fixed [] :: pieces pad false parts

theorem normalized_eq (sv : Pv) : normalized false sv = characters.encodeAll sv.chars := by
  cases sv with
  | utf8 chars => rfl
  | bytes pv => exact upgrade_eq pv

theorem literalText_eq (parts : List Part) :
    literalText false parts = characters.encodeAll (runChars parts) := by
  induction parts with
  | nil => rfl
  | cons part parts ih =>
    cases part with
    | const sv => rw [literalText, runChars, Coding.encodeAll_append, normalized_eq, ih]
    | padsv padix | pin padix | other => rfl

theorem merged_pieces (pad : Nat → Pv) (inRun : Bool) (parts : List Part) :
    (merged false pad inRun parts).map Fragment.piece =
      (pieces pad inRun parts).map (Piece.encode characters) := by
  induction parts generalizing inRun with
  | nil => rfl
  | cons part parts ih =>
    cases part with
    | const sv =>
      cases inRun <;>
        simp [merged, pieces, Fragment.piece, Piece.encode, ih, normalized_eq, literalText_eq]
    | padsv padix => simp [merged, pieces, Fragment.piece, Piece.encode, ih]
    | pin padix => simp [merged, pieces, Fragment.piece, Piece.encode, fixedText, ih, normalized_eq]
    | other => simp [merged, pieces, Fragment.piece, Piece.encode, fixedText, ih]

def Part.recoded : Part → Part
  | .const sv => .const (.utf8 sv.chars)
  | part => part

theorem runChars_recoded (parts : List Part) :
    runChars (parts.map Part.recoded) = runChars parts := by
  induction parts with
  | nil => rfl
  | cons part parts ih => cases part <;> simp [runChars, Part.recoded, Pv.chars, ih]

theorem pieces_recoded (pad pad' : Nat → Pv) (h : ∀ padix, (pad padix).chars = (pad' padix).chars)
    (inRun : Bool) (parts : List Part) :
    pieces pad' inRun (parts.map Part.recoded) = pieces pad inRun parts := by
  induction parts generalizing inRun with
  | nil => rfl
  | cons part parts ih =>
    cases part with
    | const sv => simp [pieces, Part.recoded, Pv.chars, runChars_recoded, ih]
    | padsv padix => simp [pieces, Part.recoded, ih]
    | pin padix => simp [pieces, Part.recoded, ih, h padix]
    | other => simp [pieces, Part.recoded, ih]

/-- The same shape, pins and subject, in whichever encodings. -/
structure SameCharacters (pad pad' : Nat → Pv) (node node' : Node)
    (value value' : ConcatSubject) : Prop where
  parts : (leaves node').map Part.recoded = (leaves node).map Part.recoded
  pins : ∀ padix, (pad padix).chars = (pad' padix).chars
  pok : value'.pok = value.pok
  amagic : value'.amagic = value.amagic
  isBool : value'.isBool = value.isBool
  text : value'.text.chars = value.text.chars

section Whole

variable {pad : Nat → Pv} {node : Node} {value : ConcatSubject}

/-- The validation and the match of pieces in UTF-8. -/
def matchPieces (subject : List U8) (ps : List (Piece U8 Nat)) :
    Except ConcatError (Bool × List Captured) := do
  validateCaptures [] (ps.map Fragment.ofPiece)
  matchFragments true subject (ps.map Fragment.ofPiece) 0 []

theorem concatMatch_eq (hother : Part.other ∉ leaves node) (hne : leaves node ≠ [])
    (hstring : (value.pok || value.amagic) = true) (hbool : value.isBool = false) :
    concatMatch false pad node value =
      matchPieces (characters.encodeAll value.text.chars)
        ((pieces pad false (leaves node)).map (Piece.encode characters)) := by
  have hcapacity : concatCount node ≠ 0 := by
    rw [concatCount_eq]
    exact mt List.length_eq_zero_iff.1 hne
  have hflatten : concatFlatten (concatCount node) node [] = some (leaves node) := by
    rw [concatFlatten_eq, List.nil_append]
    rw [concatCount_eq, List.length_nil, Nat.zero_add]
  have hguard : ((!value.pok && !value.amagic) || value.isBool) = false := by
    rw [hbool, Bool.or_false, ← Bool.not_or, hstring]
    rfl
  have hfixed := fixedValues_eq false pad hother
  rw [← pending_false] at hfixed
  have hmerge := mergeLiterals_pending false pad (leaves node).length false (Nat.le_refl _)
  rw [← length_pending false pad false (leaves node)] at hmerge
  rw [concatMatch, hguard, if_neg Bool.false_ne_true]
  simp only [hcapacity, if_false, hflatten, hfixed, normalized_eq]
  change (do
    validateCaptures [] (mergeLiterals _ (pending false pad false (leaves node)))
    matchFragments true _ (mergeLiterals _ (pending false pad false (leaves node))) 0 []) = _
  rw [hmerge, validateCaptures_pieces, matchFragments_pieces, merged_pieces, matchPieces]

/-- The captured texts as bindings. -/
def boundChars (captures : List (Nat × List CodePoint)) : List Captured :=
  captures.map fun capture => ⟨capture.1, characters.encodeAll capture.2, true⟩

variable {pad' : Nat → Pv} {node' : Node} {value' : ConcatSubject}

theorem SameCharacters.supported_parts
    (h : SameCharacters pad pad' node node' value value') (hother : Part.other ∉ leaves node)
    (hne : leaves node ≠ []) : Part.other ∉ leaves node' ∧ leaves node' ≠ [] := by
  constructor
  · intro hmem
    have hmap := List.mem_map_of_mem (f := Part.recoded) hmem
    rw [h.parts] at hmap
    obtain ⟨part, hpart, hrecoded⟩ := List.mem_map.1 hmap
    cases part with
    | other => exact hother hpart
    | const sv => cases hrecoded
    | padsv padix => cases hrecoded
    | pin padix => cases hrecoded
  · intro hnil
    have hmap := h.parts
    rw [hnil] at hmap
    exact hne (List.map_eq_nil_iff.1 hmap.symm)

theorem SameCharacters.same_pieces
    (h : SameCharacters pad pad' node node' value value') :
    pieces pad' false (leaves node') = pieces pad false (leaves node) := by
  rw [← pieces_recoded pad' pad' (fun _ => rfl) false (leaves node'), h.parts,
    pieces_recoded pad pad' h.pins]

theorem validate_ok (hvalid : validate node = .ok ()) :
    Part.other ∉ leaves node ∧ leaves node ≠ [] ∧
      ∃ b, seeAll (leaves node) ⟨false, false⟩ = .ok b := by
  rw [validate] at hvalid
  cases hconcat : validateConcat node with
  | error e =>
    rw [hconcat] at hvalid
    cases hvalid
  | ok u =>
    rw [hconcat] at hvalid
    obtain ⟨hother, hne⟩ := validateConcat_ok node hconcat
    refine ⟨hother, hne, ?_⟩
    cases hsee : seeAll (leaves node) ⟨false, false⟩ with
    | ok b => exact ⟨b, rfl⟩
    | error e =>
      rw [validateConcatBoundaries_eq, hsee] at hvalid
      cases hvalid

/-- For every valid concatenation without a variable captured twice, every string and whichever
encodings: the match succeeds exactly when the shortest captures up to the next fixed text consume
the whole subject; then the pieces and captures joined are the subject; and the result does not
depend on the encodings. -/
theorem concatMatch_splits (pad : Nat → Pv) (node : Node) (value : ConcatSubject)
    (hvalid : validate node = .ok ()) (hnames : (captures (leaves node)).Nodup)
    (hstring : (value.pok || value.amagic) = true) (hbool : value.isBool = false) :
    ∃ matched bindings, concatMatch false pad node value = .ok (matched, bindings) ∧
      (matched = true ↔
        ∃ captures, Splits (pieces pad false (leaves node)) value.text.chars captures) ∧
      (matched = true → ∃ captures,
        Splits (pieces pad false (leaves node)) value.text.chars captures ∧
        bindings = boundChars captures ∧
        joined (pieces pad false (leaves node)) captures = value.text.chars) ∧
      ∀ pad' node' value', SameCharacters pad pad' node node' value value' →
        concatMatch false pad' node' value' = .ok (matched, bindings) := by
  obtain ⟨hother, hne, b, hsee⟩ := validate_ok hvalid
  have hcaptures : validateCaptures [] (merged false pad false (leaves node)) = .ok () := by
    rw [validateCaptures_merged [] hsee, if_pos ⟨hnames, by simp⟩]
  have hreturns : Returns true _ ((characters.encodeAll value.text.chars).drop 0) [] _ :=
    matchFragments_spec true hcaptures (Nat.zero_le _) []
  obtain ⟨matched, bs, hmatch, hsome, hnone⟩ := hreturns
  rw [List.drop_zero, merged_pieces] at hsome hnone
  rw [List.nil_append] at hmatch
  have hpieces : matchPieces (characters.encodeAll value.text.chars)
      ((pieces pad false (leaves node)).map (Piece.encode characters)) = .ok (matched, bs) := by
    rw [validateCaptures_pieces, merged_pieces] at hcaptures
    rw [matchFragments_pieces, merged_pieces] at hmatch
    rw [matchPieces, hcaptures]
    exact hmatch
  have hsplit (h : matched = true) : ∃ captures,
      Splits (pieces pad false (leaves node)) value.text.chars captures ∧
        bs = boundChars captures := by
    obtain ⟨C, hbs, hsplits⟩ := hsome h
    obtain ⟨captures, rfl, hchars⟩ := (splits_encode characters).1 hsplits
    refine ⟨captures, hchars, ?_⟩
    rw [hbs, bound, encodeCaptures, boundChars, List.map_map]
    rfl
  refine ⟨matched, bs, ?_, ?_, ?_, ?_⟩
  · rw [concatMatch_eq hother hne hstring hbool, hpieces]
  · constructor
    · intro h
      obtain ⟨captures, hsplits, -⟩ := hsplit h
      exact ⟨captures, hsplits⟩
    · intro h
      obtain ⟨captures, hsplits⟩ := h
      cases hmatched : matched with
      | true => rfl
      | false =>
        exact absurd ((splits_encode characters).2 ⟨captures, rfl, hsplits⟩) (hnone hmatched _)
  · intro h
    obtain ⟨captures, hsplits, hbs⟩ := hsplit h
    exact ⟨captures, hsplits, hbs, hsplits.joined⟩
  · intro pad' node' value' hsame
    obtain ⟨hother', hne'⟩ := hsame.supported_parts hother hne
    have hstring' : (value'.pok || value'.amagic) = true := by
      rw [hsame.pok, hsame.amagic, hstring]
    rw [concatMatch_eq hother' hne' hstring' (hsame.isBool.trans hbool), hsame.same_pieces, hsame.text,
      hpieces]

/-- A string subject. -/
def stringSubject (text : Pv) : ConcatSubject := ⟨true, false, false, text⟩

/-- The shape `"a" . $x . "é"` with its last literal in UTF-8. -/
def betweenAAndE : Node :=
  .concat [.concat [.part (.const (.bytes [0x61])), .part (.padsv 1)],
    .part (.const (.utf8 [ofByte 0xE9]))]

theorem concatMatch_splits_bytes :
    ∃ captures, Splits (pieces (fun _ => .bytes []) false (leaves betweenAAndE))
        [ofByte 0x61, ofByte 0x78, ofByte 0xE9] captures ∧
      concatMatch false (fun _ => .bytes []) betweenAAndE
        (stringSubject (.bytes [0x61, 0x78, 0xE9])) = .ok (true, boundChars captures) := by
  have hrun : concatMatch false (fun _ => .bytes []) betweenAAndE
      (stringSubject (.bytes [0x61, 0x78, 0xE9])) = .ok (true, [⟨1, [0x78], true⟩]) := by
    decide +kernel
  obtain ⟨matched, bindings, hmatch, -, hsplits, -⟩ := concatMatch_splits (fun _ => .bytes [])
    betweenAAndE (stringSubject (.bytes [0x61, 0x78, 0xE9])) rfl (by decide) rfl rfl
  rw [hrun] at hmatch
  cases hmatch
  obtain ⟨captures, hsplits, hbound, -⟩ := hsplits rfl
  exact ⟨captures, hsplits, hbound ▸ hrun⟩

def beforeAB : Node :=
  .concat [.concat [.part (.padsv 1), .part (.const (.bytes [0x61]))],
    .part (.const (.bytes [0x62]))]

/-- With every literal a boundary of its own the capture would be cut at the first "a" of "aab". -/
theorem adjacent_literals_are_one :
    concatMatch false (fun _ => .bytes []) beforeAB (stringSubject (.bytes [0x61, 0x61, 0x62])) =
        .ok (true, [⟨1, [0x61], true⟩]) ∧
      ¬ ∃ captures, Splits [.capture 1, .fixed [ofByte 0x61], .fixed [ofByte 0x62]]
        [ofByte 0x61, ofByte 0x61, ofByte 0x62] captures := by
  refine ⟨by decide +kernel, ?_⟩
  intro h
  obtain ⟨captures, hsplits⟩ := h
  have hfirst : FirstAt [ofByte 0x61] [ofByte 0x61, ofByte 0x61, ofByte 0x62] []
      [ofByte 0x61, ofByte 0x61, ofByte 0x62] :=
    ⟨rfl, ⟨_, rfl⟩, fun _ _ _ _ => Nat.zero_le _⟩
  cases hsplits with
  | rest hnone _ => cases hnone
  | upTo hsome hfirst' h =>
    cases hsome
    obtain ⟨rfl, rfl⟩ := hfirst.unique hfirst'
    generalize hs : [ofByte 0x61, ofByte 0x61, ofByte 0x62] = s at h
    cases h with
    | fixed h =>
      obtain ⟨-, rfl⟩ := List.cons.inj hs
      generalize hs' : [ofByte 0x61, ofByte 0x62] = s at h
      cases h with
      | fixed h =>
        obtain ⟨heq, -⟩ := List.cons.inj hs'
        revert heq
        decide

end Whole

end XPerl.Dispatch
