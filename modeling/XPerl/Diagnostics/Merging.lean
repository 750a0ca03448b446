import Mathlib.Algebra.Order.Ring.Int
import Mathlib.Data.List.Basic
import Mathlib.Logic.Function.Iterate

/-! Exceptions hold diagnostics under `contents`: they are merged into one, and delivered in groups. -/

namespace XPerl.Diagnostics

inductive Severity where
  | warning
  | deprecation
  | severeWarning
  | fatalError
  | internalError
  | named (name : String)
deriving DecidableEq

/-- The fields of a hash; a slot of `contents` may hold no reference to one. -/
structure Fields where
  code : Option String := none
  number : Option Nat := none
  kind : Option String := none
  severity : Option Severity := none
  location : Option Nat := none
  /-- The class is `XPerl::Diagnostic::Note` or one below it. -/
  note : Bool := false
  light : Bool := false
  isHint : Bool := false
  hasFollowingHint : Bool := false
  contextFollowsIndex : Option Int := none
  fatalWarning : Bool := false
  promotionReason : Option String := none
  errorCount : Nat := 0
  contents : List (Option Nat) := []
deriving DecidableEq

def Fields.isWarning (f : Fields) : Bool :=
  f.severity = some .warning || f.severity = some .deprecation || f.severity = some .severeWarning

/-- The hashes; a reference is a place in this list. -/
abbrev Heap := List Fields

def messageAt (messages : List (Option Nat)) (i : Nat) : Option Nat := messages[i]?.join

theorem messageAt_eq_some {messages : List (Option Nat)} {i : Nat} {d : Nat} :
    messageAt messages i = some d ↔ messages[i]? = some (some d) := by
  rw [messageAt, Option.join_eq_some_iff]

namespace Heap

variable {h : Heap} {r d : Nat}

def contents (h : Heap) (r : Nat) : List (Option Nat) := (h[r]?.map Fields.contents).getD []

/-- All references are to hashes. -/
def Closed (h : Heap) : Prop := ∀ r d, some d ∈ h.contents r → d < h.length

theorem contents_of_get {f : Fields} (hf : h[r]? = some f) : h.contents r = f.contents := by
  simp [contents, hf]

theorem contents_of_le (hr : h.length ≤ r) : h.contents r = [] := by
  simp [contents, List.getElem?_eq_none hr]

theorem Closed.lt (hclosed : h.Closed) {i : Nat} (hd : messageAt (h.contents r) i = some d) :
    d < h.length := hclosed r d (List.mem_of_getElem? (messageAt_eq_some.1 hd))

end Heap

def uvModulus : Nat := 2 ^ 64

def pushMessage (h : Heap) (exception : Nat) (message : Option Nat) : Heap :=
  h.modify exception fun f => { f with contents := f.contents ++ [message] }

def errorCount (h : Heap) (exception : Nat) : Nat := (h[exception]?.map Fields.errorCount).getD 0

def incrementErrorCount (exception : Nat) (h : Heap) : Heap :=
  h.modify exception fun f => { f with errorCount := (errorCount h exception + 1) % uvModulus }

/-- `Perl_diag_append_exception_internal` for an exception; the slot may be empty. -/
def appendException (h : Heap) (slot : Option Nat) (ex : Nat) : Heap × Option Nat :=
  match slot with
  | none => (h, some ex)
  | some pending =>
    if pending = ex then (h, slot)
    else
      let pushed := (h.contents ex).foldl (fun h' message =>
        if message.isSome then pushMessage h' pending message else h') h
      ((incrementErrorCount pending)^[errorCount pushed ex] pushed, slot)

/-- A sequence of calls on one slot. -/
def appendExceptions (h : Heap) (slot : Option Nat) (exs : List Nat) : Heap × Option Nat :=
  exs.foldl (fun s ex => appendException s.1 s.2 ex) (h, slot)

def copyMessages (h : Heap) (messages : List (Option Nat)) : List Nat :=
  messages.filterMap fun message => message.bind fun d => if d < h.length then some d else none

def messagePresent (messages : List (Option Nat)) (d : Nat) : Bool := some d ∈ messages

def fieldsAt (h : Heap) (source : List Nat) (i : Nat) : Option Fields :=
  source[i]?.bind fun d => h[d]?

def warningHasHintAfter (h : Heap) (source : List Nat) (i : Nat) : Bool :=
  ((fieldsAt h source i).map Fields.hasFollowingHint).getD false &&
    ((fieldsAt h source (i + 1)).map Fields.isHint).getD false

/-- `ERROR_PROPAGATION_RETHROW_CONTEXT`, `ERROR_PHASE_BEGIN_FAILED`,
`ERROR_PHASE_CALL_QUEUE_ABORTED` and `ERROR_PROPAGATION_EVAL_CONTEXT` -/
def propagationNumbers : List Nat := [2446, 2447, 2450, 2451]

def isPropagation (h : Heap) (source : List Nat) (i : Nat) : Bool :=
  (((fieldsAt h source i).bind Fields.number).map propagationNumbers.contains).getD false

def belongsBefore (h : Heap) (source : List Nat) (last : Nat) : Bool :=
  warningHasHintAfter h source last || isPropagation h source (last + 1)

/-- The loop of `Perl_diag_group_end`, with the number of diagnostics that are left. -/
def extendGroup (h : Heap) (source : List Nat) (last : Nat) : Nat → Nat
  | 0 => last
  | left + 1 => if belongsBefore h source last then extendGroup h source (last + 1) left else last

def groupTail (h : Heap) (source : List Nat) (first : Nat) : Nat :=
  match fieldsAt h source first with
  | none => first
  | some f => match f.light, f.contextFollowsIndex with
    | true, some tail => if first ≤ tail ∧ tail < source.length then tail.toNat else first
    | _, _ => first

def groupEnd (h : Heap) (source : List Nat) (first : Nat) : Nat :=
  let last := groupTail h source first
  extendGroup h source last (source.length - 1 - last)

def compileErrorBatch (h : Heap) (source : List Nat) : Bool :=
  source.all (fun d => (h[d]?.map fun f => !f.isWarning || f.light || f.isHint).getD true) &&
    source.any fun d => (h[d]?.map fun f => f.kind == some "CORE_COMPILE").getD false

/-- An action of a delivery: a group, its first diagnostic and where that was. -/
structure Action where
  root : Nat
  group : List Nat
  groupFirst : Nat
deriving DecidableEq

/-- `Perl_diag_delivery_append_actions`, with a bound on the rounds. -/
def appendActions (h : Heap) (source : List Nat) (canonical : List (Option Nat))
    (compileBatch : Bool) : Nat → Nat → List Action
  | 0, _ => []
  | rounds + 1, i =>
    match source[i]? with
    | none => []
    | some d =>
      if messagePresent canonical d then
        let last := if compileBatch then source.length - 1 else groupEnd h source i
        ⟨d, (source.drop i).take (last + 1 - i), i⟩ ::
          appendActions h source canonical compileBatch rounds (last + 1)
      else appendActions h source canonical compileBatch rounds (i + 1)

def deliveryAppendActions (h : Heap) (source : List Nat) (canonical : List (Option Nat))
    (start : Nat) (compileBatch : Bool) : List Action :=
  appendActions h source canonical compileBatch source.length start

/-- A message of a view: the fields it shows, and the diagnostic that they were taken from. -/
structure Shown where
  diagnostic : Nat
  fields : Fields
deriving DecidableEq

def rebase (first : Nat) (m : Shown) : Shown :=
  match m.fields.contextFollowsIndex with
  | none => m
  | some tail => if tail < first then m
    else { m with fields := { m.fields with contextFollowsIndex := some (tail - first) } }

def rebaseGroup (first : Nat) (messages : List Shown) : List Shown := messages.map (rebase first)

def renderGroupView (h : Heap) (a : Action) : List Shown :=
  let messages := a.group.filterMap fun d => h[d]?.map fun f => ⟨d, f⟩
  if a.groupFirst = 0 then messages else rebaseGroup a.groupFirst messages

/-- `Perl_xperl_diagnostic_has_context_followup`, for the message at an index of a view -/
def hasContextFollowup (view : List Shown) (index : Nat) (f : Fields) : Bool :=
  f.light && match f.contextFollowsIndex with
    | none => false
    | some target => index < target && target < view.length

section Merging

variable {h h' : Heap} {slot : Option Nat} {exs : List Nat} {p ex acc r i t n : Nat}
  {m : Option Nat} {messages : List (Option Nat)}

def SameDiagnostics (h h' : Heap) : Prop :=
  h'.length = h.length ∧ ∀ (r : Nat) (f : Fields), h[r]? = some f → ∃ g, h'[r]? = some g ∧
    g = { f with contents := g.contents, errorCount := g.errorCount }

theorem SameDiagnostics.refl (h : Heap) : SameDiagnostics h h := ⟨rfl, fun _ f hf => ⟨f, hf, rfl⟩⟩

theorem SameDiagnostics.trans {h'' : Heap} (h₁ : SameDiagnostics h h')
    (h₂ : SameDiagnostics h' h'') : SameDiagnostics h h'' := by
  refine ⟨h₂.1.trans h₁.1, fun r f hf => ?_⟩
  obtain ⟨g, hg, heq⟩ := h₁.2 r f hf
  obtain ⟨k, hk, heq'⟩ := h₂.2 r g hg
  exact ⟨k, hk, by rw [heq', heq]⟩

theorem contents_modify {u : Fields → Fields} :
    Heap.contents (h.modify p u) r =
      if p = r then ((h[r]?.map u).map Fields.contents).getD [] else h.contents r := by
  rw [Heap.contents, Heap.contents, List.getElem?_modify]
  split <;> simp

theorem pushMessage_same : SameDiagnostics h (pushMessage h p m) := by
  refine ⟨List.length_modify .., fun r f hf => ?_⟩
  rw [pushMessage, List.getElem?_modify, hf]
  split
  · exact ⟨_, rfl, rfl⟩
  · exact ⟨f, rfl, rfl⟩

theorem contents_pushMessage (hp : p < h.length) :
    (pushMessage h p m).contents r = h.contents r ++ if p = r then [m] else [] := by
  rw [pushMessage, contents_modify]
  split
  case isTrue heq =>
    subst heq
    simp [Heap.contents, List.getElem?_eq_getElem hp]
  case isFalse => rw [List.append_nil]

@[simp]
theorem errorCount_pushMessage : errorCount (pushMessage h p m) r = errorCount h r := by
  rw [errorCount, errorCount, pushMessage, List.getElem?_modify]
  split <;> cases h[r]? <;> simp

theorem push_spec (messages : List (Option Nat)) (hp : p < h.length) :
    let pushed := messages.foldl (fun h' message =>
      if message.isSome then pushMessage h' p message else h') h
    SameDiagnostics h pushed ∧ (∀ r, errorCount pushed r = errorCount h r) ∧
      ∀ r, pushed.contents r =
        h.contents r ++ if p = r then messages.filter Option.isSome else [] := by
  induction messages generalizing h with
  | nil => exact ⟨.refl h, fun _ => rfl, fun r => by simp⟩
  | cons m messages ih =>
    cases m with
    | none => exact ih hp
    | some d =>
      obtain ⟨hsame, herrors, hcontents⟩ := ih (h := pushMessage h p (some d)) (by
        rwa [pushMessage_same.1])
      refine ⟨pushMessage_same.trans hsame, fun r => ?_, fun r => ?_⟩
      · exact (herrors r).trans errorCount_pushMessage
      · refine (hcontents r).trans ?_
        rw [contents_pushMessage hp]
        split <;> simp

theorem incrementErrorCount_same : SameDiagnostics h (incrementErrorCount p h) := by
  refine ⟨List.length_modify .., fun r f hf => ?_⟩
  rw [incrementErrorCount, List.getElem?_modify, hf]
  split
  · exact ⟨_, rfl, rfl⟩
  · exact ⟨f, rfl, rfl⟩

@[simp]
theorem contents_incrementErrorCount : (incrementErrorCount p h).contents r = h.contents r := by
  rw [incrementErrorCount, contents_modify]
  split
  · rw [Heap.contents]
    cases h[r]? <;> rfl
  · rfl

theorem errorCount_incrementErrorCount (hp : p < h.length) :
    errorCount (incrementErrorCount p h) r =
      if p = r then (errorCount h r + 1) % uvModulus else errorCount h r := by
  rw [errorCount, incrementErrorCount, List.getElem?_modify]
  split
  case isTrue heq =>
    subst heq
    simp [List.getElem?_eq_getElem hp]
  case isFalse => simp [errorCount]

theorem increments_spec (hp : p < h.length) (n : Nat) :
    let counted := (incrementErrorCount p)^[n] h
    SameDiagnostics h counted ∧ (∀ r, counted.contents r = h.contents r) ∧
      (∀ r, p ≠ r → errorCount counted r = errorCount h r) ∧
      (errorCount h p + n < uvModulus → errorCount counted p = errorCount h p + n) := by
  induction n generalizing h with
  | zero => exact ⟨.refl h, fun _ => rfl, fun _ _ => rfl, fun _ => rfl⟩
  | succ n ih =>
    obtain ⟨hsame, hcontents, hothers, hcount⟩ := ih (h := incrementErrorCount p h) (by
      rwa [incrementErrorCount_same.1])
    refine ⟨incrementErrorCount_same.trans hsame, fun r => ?_, fun r hne => ?_, fun hlt => ?_⟩
    · exact (hcontents r).trans contents_incrementErrorCount
    · refine (hothers r hne).trans ?_
      rw [errorCount_incrementErrorCount hp, if_neg hne]
    · have hnext : errorCount (incrementErrorCount p h) p = errorCount h p + 1 := by
        rw [errorCount_incrementErrorCount hp, if_pos rfl, Nat.mod_eq_of_lt (by omega)]
      refine (hcount (by omega)).trans ?_
      omega

def moved (h : Heap) (pending ex : Nat) : List (Option Nat) :=
  if pending = ex then [] else (h.contents ex).filter Option.isSome

theorem appendException_self : appendException h (some p) p = (h, some p) := by
  simp [appendException]

theorem appendException_spec (hp : p < h.length) (ex : Nat) :
    let after := appendException h (some p) ex
    after.2 = some p ∧ SameDiagnostics h after.1 ∧
      (∀ r, after.1.contents r = h.contents r ++ if p = r then moved h p ex else []) ∧
      (∀ r, p ≠ r → errorCount after.1 r = errorCount h r) ∧
      (p ≠ ex → errorCount h p + errorCount h ex < uvModulus →
        errorCount after.1 p = errorCount h p + errorCount h ex) := by
  by_cases hself : p = ex
  · subst hself
    simp [appendException, moved, SameDiagnostics.refl]
  · simp only [appendException, if_neg hself, moved]
    obtain ⟨hsame, herrors, hcontents⟩ := push_spec (h.contents ex) hp
    obtain ⟨hsame', hcontents', hothers, hcount⟩ := increments_spec (by rwa [hsame.1])
      (errorCount ((h.contents ex).foldl (fun h' message =>
        if message.isSome then pushMessage h' p message else h') h) ex)
    rw [herrors, herrors] at hcount
    refine ⟨trivial, hsame.trans hsame', fun r => ?_, fun r hne => ?_, fun _ hlt => ?_⟩
    · rw [hcontents', hcontents]
    · rw [hothers r hne, herrors]
    · rw [herrors]
      exact hcount hlt

/-- A light diagnostic names one later in its list. -/
def Links (h : Heap) (messages : List (Option Nat)) (i t : Nat) : Prop :=
  ∃ d f, messages[i]? = some (some d) ∧ h[d]? = some f ∧ f.light ∧
    f.contextFollowsIndex = some (t : Int) ∧ i < t ∧ ∃ e, messages[t]? = some (some e)

theorem Links.lt (hlinks : Links h messages i t) : t < messages.length := by
  obtain ⟨_, _, _, _, _, _, _, e, he⟩ := hlinks
  exact (List.getElem?_eq_some_iff.1 he).1

theorem Links.append (hlinks : Links h messages i t) (hsame : SameDiagnostics h h')
    (rest : List (Option Nat)) : Links h' (messages ++ rest) i t := by
  have ht := hlinks.lt
  obtain ⟨d, f, hd, hf, hlight, hindex, hit, e, he⟩ := hlinks
  obtain ⟨g, hg, heq⟩ := hsame.2 d f hf
  refine ⟨d, g, ?_, hg, by rw [heq]; exact hlight, by rw [heq]; exact hindex, hit, e, ?_⟩
  · rw [List.getElem?_append_left (by omega), hd]
  · rw [List.getElem?_append_left ht, he]

/-- What a call needs so that no link is lost: the list that it adds to is empty, or the list that
it adds has no links. -/
structure Meets (h : Heap) (pending ex : Nat) : Prop where
  links : (∀ i t, ¬ Links h (h.contents ex) i t) ∨
    h.contents pending = [] ∧ none ∉ h.contents ex
  count : errorCount h pending + errorCount h ex < uvModulus

/-- All calls of a sequence meet the condition, in the states that they come to. -/
def MeetsAll : Heap → Option Nat → List Nat → Prop
  | _, _, [] => True
  | h, slot, ex :: exs => (∀ pending, slot = some pending → pending ≠ ex → Meets h pending ex) ∧
      MeetsAll (appendException h slot ex).1 (appendException h slot ex).2 exs

def mergedCount (h : Heap) (acc : Nat) (exs : List Nat) : Nat :=
  errorCount h acc + (exs.map fun ex => if acc = ex then 0 else errorCount h ex).sum

/-- What a sequence of calls leaves. -/
structure Merged (h : Heap) (acc : Nat) (exs : List Nat) (after : Heap × Option Nat) : Prop where
  slot : after.2 = some acc
  same : SameDiagnostics h after.1
  contents : after.1.contents acc = h.contents acc ++ exs.flatMap (moved h acc)
  count : errorCount after.1 acc = mergedCount h acc exs
  links : ∀ e, e = acc ∨ e ∈ exs → ∀ i t, Links h (h.contents e) i t →
    (after.1.contents acc)[t]? = (h.contents e)[t]?

theorem moved_congr (hcontents : ∀ r, acc ≠ r → h'.contents r = h.contents r) :
    moved h' acc = moved h acc := by
  funext e
  rw [moved, moved]
  split
  case isTrue => rfl
  case isFalse hne => rw [hcontents e hne]

theorem mergedCount_congr (hothers : ∀ r, acc ≠ r → errorCount h' r = errorCount h r)
    (hcount : errorCount h' acc = errorCount h acc + if acc = ex then 0 else errorCount h ex) :
    mergedCount h' acc exs = mergedCount h acc (ex :: exs) := by
  have hmap : (exs.map fun e => if acc = e then 0 else errorCount h' e) =
      exs.map fun e => if acc = e then 0 else errorCount h e := by
    refine List.map_congr_left fun e _ => ?_
    split
    case isTrue => rfl
    case isFalse hne => exact hothers e hne
  rw [mergedCount, mergedCount, hmap, hcount, List.map_cons, List.sum_cons, Nat.add_assoc]

theorem Meets.links_kept (hmeets : Meets h acc ex) (hne : acc ≠ ex)
    (hlinks : Links h (h.contents ex) i t) : h.contents acc ++ moved h acc ex = h.contents ex := by
  obtain ⟨hempty, hholes⟩ := hmeets.links.resolve_left fun hnone => hnone i t hlinks
  rw [hempty, moved, if_neg hne, List.nil_append, List.filter_eq_self]
  intro m hm
  cases m with
  | none => exact absurd hm hholes
  | some d => rfl

theorem appendExceptions_spec (hacc : acc < h.length) (hmeets : MeetsAll h (some acc) exs) :
    Merged h acc exs (appendExceptions h (some acc) exs) := by
  induction exs generalizing h with
  | nil =>
    refine ⟨rfl, .refl h, by simp [appendExceptions], by simp [appendExceptions, mergedCount],
      fun e he i t _ => ?_⟩
    rw [he.resolve_right List.not_mem_nil, appendExceptions, List.foldl_nil]
  | cons ex exs ih =>
    obtain ⟨hslot, hsame, hcontents, hothers, hcount⟩ := appendException_spec hacc ex
    obtain ⟨hfirst, hrest⟩ := hmeets
    rw [hslot] at hrest
    have hafter := ih (by rwa [hsame.1]) hrest
    have heq : appendExceptions h (some acc) (ex :: exs) =
        appendExceptions (appendException h (some acc) ex).1 (some acc) exs := by
      rw [appendExceptions, List.foldl_cons, appendExceptions]
      congr 1
      exact Prod.ext rfl hslot
    have hprefix := hcontents acc
    rw [if_pos rfl] at hprefix
    have hkept (r : Nat) (hne : acc ≠ r) :
        (appendException h (some acc) ex).1.contents r = h.contents r := by
      rw [hcontents, if_neg hne, List.append_nil]
    rw [heq]
    refine ⟨hafter.slot, hsame.trans hafter.same, ?_, ?_, fun e he i t hlinks => ?_⟩
    · rw [hafter.contents, hprefix, moved_congr hkept, List.append_assoc, List.flatMap_cons]
    · rw [hafter.count]
      refine mergedCount_congr hothers ?_
      split
      case isTrue hself => rw [← hself, appendException_self, Nat.add_zero]
      case isFalse hne => exact hcount hne (hfirst acc rfl hne).count
    · have hfound (messages rest : List (Option Nat)) (hlinks : Links h messages i t)
          (hlist : h.contents acc ++ moved h acc ex = messages ++ rest) :
          ((appendExceptions (appendException h (some acc) ex).1 (some acc) exs).1.contents
            acc)[t]? = messages[t]? := by
        rw [← hprefix] at hlist
        rw [hafter.links acc (.inl rfl) i t (by rw [hlist]; exact hlinks.append hsame rest), hlist,
          List.getElem?_append_left hlinks.lt]
      by_cases hself : e = acc
      · subst hself
        exact hfound _ _ hlinks rfl
      have hmem : e = ex ∨ e ∈ exs := List.mem_cons.1 (he.resolve_left hself)
      rcases hmem with rfl | hmem
      · have hne : acc ≠ e := Ne.symm hself
        refine hfound _ [] hlinks ?_
        rw [(hfirst acc rfl hne).links_kept hne hlinks, List.append_nil]
      · have hsame' := hkept e (Ne.symm hself)
        rw [hafter.links e (.inr hmem) i t ?_, hsame']
        rw [hsame']
        have hall := hlinks.append hsame []
        rwa [List.append_nil] at hall

/-- The exception that a sequence of calls fills. -/
def accumulator (slot : Option Nat) (exs : List Nat) : Option Nat := slot.or exs.head?

theorem appendExceptions_merged (hacc : accumulator slot exs = some acc) (hlt : acc < h.length)
    (hmeets : MeetsAll h slot exs) : Merged h acc exs (appendExceptions h slot exs) := by
  cases slot with
  | some p =>
    cases hacc
    exact appendExceptions_spec hlt hmeets
  | none =>
    cases exs with
    | nil => cases hacc
    | cons ex exs =>
      cases hacc
      have hmerged := appendExceptions_spec hlt hmeets.2
      refine ⟨hmerged.slot, hmerged.same, ?_, ?_, fun e he => hmerged.links e ?_⟩
      · refine hmerged.contents.trans ?_
        rw [List.flatMap_cons, moved, if_pos rfl, List.nil_append]
      · refine hmerged.count.trans ?_
        rw [mergedCount, mergedCount, List.map_cons, List.sum_cons, if_pos rfl, Nat.zero_add]
      · rcases he with he | he
        · exact .inl he
        · exact List.mem_cons.1 he

theorem appendException_loses (hp : p < h.length) (hne : p ≠ ex) (hnonempty : h.contents p ≠ [])
    (hholes : none ∉ h.contents ex) (hnodup : (h.contents p ++ h.contents ex).Nodup)
    (hlinks : Links h (h.contents ex) i t) :
    ((appendException h (some p) ex).1.contents p)[t]? ≠ (h.contents ex)[t]? := by
  obtain ⟨-, -, hcontents, -⟩ := appendException_spec hp ex
  have hfilter : (h.contents ex).filter Option.isSome = h.contents ex := by
    rw [List.filter_eq_self]
    intro m hm
    cases m with
    | none => exact absurd hm hholes
    | some d => rfl
  have ht := hlinks.lt
  have hpos := List.length_pos_iff.2 hnonempty
  rw [hcontents, if_pos rfl, moved, if_neg hne, hfilter]
  intro hsame
  have hplace : (h.contents p ++ h.contents ex)[(h.contents p).length + t]? =
      (h.contents p ++ h.contents ex)[t]? := by
    rw [hsame, List.getElem?_append_right (Nat.le_add_right _ _), Nat.add_sub_cancel_left]
  have hlt : t < (h.contents p ++ h.contents ex).length := by
    rw [List.length_append]
    omega
  have heq := (List.getElem?_inj hlt hnodup).1 hplace.symm
  omega

end Merging

section Groups

variable {h : Heap} {source : List Nat} {canonical : List (Option Nat)} {compileBatch : Bool}
  {first last i j t u rounds left : Nat}

abbrev Linked (h : Heap) (source : List Nat) (i t : Nat) : Prop := Links h (source.map some) i t

/-- Links do not cross, and what belongs to the diagnostic before it has no link. -/
structure Nested (h : Heap) (source : List Nat) : Prop where
  inside : ∀ i t j u, Linked h source i t → i < j → j ≤ t → Linked h source j u → u ≤ t
  followers : ∀ j u, belongsBefore h source j → ¬ Linked h source (j + 1) u

theorem linked_iff : Linked h source i t ↔ ∃ f, fieldsAt h source i = some f ∧ f.light ∧
    f.contextFollowsIndex = some (t : Int) ∧ i < t ∧ t < source.length := by
  constructor
  · rintro ⟨d, f, hd, hf, hlight, hindex, hit, e, he⟩
    rw [List.getElem?_map, Option.map_eq_some_iff] at hd he
    obtain ⟨d', hd', heq⟩ := hd
    obtain ⟨e', he', -⟩ := he
    cases heq
    exact ⟨f, by rw [fieldsAt, hd', Option.bind_some, hf], hlight, hindex, hit,
      (List.getElem?_eq_some_iff.1 he').1⟩
  · rintro ⟨f, hf, hlight, hindex, hit, ht⟩
    obtain ⟨d, hd, hf⟩ := Option.bind_eq_some_iff.1 hf
    refine ⟨d, f, ?_, hf, hlight, hindex, hit, source[t], ?_⟩
    · rw [List.getElem?_map, hd, Option.map_some]
    · rw [List.getElem?_map, List.getElem?_eq_getElem ht, Option.map_some]

theorem extendGroup_spec (h : Heap) (source : List Nat) (last left : Nat) :
    last ≤ extendGroup h source last left ∧ extendGroup h source last left ≤ last + left ∧
      ∀ j, last ≤ j → j < extendGroup h source last left → belongsBefore h source j := by
  induction left generalizing last with
  | zero => exact ⟨Nat.le_refl _, Nat.le_refl _, fun j hj hlt => absurd hj (Nat.not_le.2 hlt)⟩
  | succ left ih =>
    rw [extendGroup]
    split
    case isTrue hbelongs =>
      obtain ⟨hle, hbound, hall⟩ := ih (last + 1)
      refine ⟨by omega, by omega, fun j hj hlt => ?_⟩
      rcases Nat.eq_or_lt_of_le hj with rfl | hj
      · exact hbelongs
      · exact hall j hj hlt
    case isFalse =>
      exact ⟨Nat.le_refl _, by omega, fun j hj hlt => absurd hj (Nat.not_le.2 hlt)⟩

theorem groupTail_spec (hfirst : first < source.length) :
    first ≤ groupTail h source first ∧ groupTail h source first < source.length ∧
      (groupTail h source first = first ∨ Linked h source first (groupTail h source first)) ∧
      ∀ t, Linked h source first t → groupTail h source first = t := by
  have hno (heq : groupTail h source first = first) (hnone : ∀ t, ¬ Linked h source first t) :
      first ≤ groupTail h source first ∧ groupTail h source first < source.length ∧
        (groupTail h source first = first ∨ Linked h source first (groupTail h source first)) ∧
        ∀ t, Linked h source first t → groupTail h source first = t :=
    ⟨Nat.le_of_eq heq.symm, by rwa [heq], .inl heq, fun t ht => absurd ht (hnone t)⟩
  cases hf : fieldsAt h source first with
  | none =>
    refine hno (by rw [groupTail, hf]) fun t ht => ?_
    obtain ⟨f, hf', -⟩ := linked_iff.1 ht
    cases hf.symm.trans hf'
  | some f =>
    by_cases hlight : f.light = true
    case neg =>
      refine hno (by simp [groupTail, hf, hlight]) fun t ht => ?_
      obtain ⟨f', hf', hlight', -⟩ := linked_iff.1 ht
      cases hf.symm.trans hf'
      exact hlight hlight'
    cases hindex : f.contextFollowsIndex with
    | none =>
      refine hno (by simp [groupTail, hf, hlight, hindex]) fun t ht => ?_
      obtain ⟨f', hf', -, hindex', -⟩ := linked_iff.1 ht
      cases hf.symm.trans hf'
      cases hindex.symm.trans hindex'
    | some tail =>
      have heq : groupTail h source first =
          if first ≤ tail ∧ tail < source.length then tail.toNat else first := by
        simp [groupTail, hf, hlight, hindex]
      by_cases hrange : (first : Int) ≤ tail ∧ tail < source.length
      · rw [if_pos hrange] at heq
        obtain ⟨n, rfl⟩ := Int.eq_ofNat_of_zero_le (show 0 ≤ tail by omega)
        rw [Int.toNat_natCast] at heq
        rw [heq]
        refine ⟨by omega, by omega, ?_, fun t ht => ?_⟩
        · rcases Nat.eq_or_lt_of_le (show first ≤ n by omega) with rfl | hlt
          · exact .inl rfl
          · exact .inr (linked_iff.2 ⟨f, hf, hlight, hindex, hlt, by omega⟩)
        · obtain ⟨f', hf', -, hindex', -⟩ := linked_iff.1 ht
          cases hf.symm.trans hf'
          have hsame := Option.some.inj (hindex.symm.trans hindex')
          omega
      · rw [if_neg hrange] at heq
        refine hno heq fun t ht => ?_
        obtain ⟨f', hf', -, hindex', hlt, hlength⟩ := linked_iff.1 ht
        cases hf.symm.trans hf'
        have hsame := Option.some.inj (hindex.symm.trans hindex')
        omega

theorem groupEnd_bounds (hfirst : first < source.length) :
    groupTail h source first ≤ groupEnd h source first ∧
      groupEnd h source first < source.length := by
  obtain ⟨-, hlt, -⟩ := groupTail_spec (h := h) hfirst
  obtain ⟨hle, hbound, -⟩ := extendGroup_spec h source (groupTail h source first)
    (source.length - 1 - groupTail h source first)
  rw [groupEnd]
  exact ⟨hle, by omega⟩

theorem Nested.groupEnd (hnested : Nested h source) (hfirst : first < source.length)
    (hi : first ≤ i) (hlast : i ≤ groupEnd h source first) (hlinked : Linked h source i t) :
    t ≤ groupEnd h source first := by
  obtain ⟨hle, htail, hcases, hnamed⟩ := groupTail_spec (h := h) hfirst
  obtain ⟨hbound, -⟩ := groupEnd_bounds (h := h) hfirst
  obtain ⟨-, -, hbelongs⟩ := extendGroup_spec h source (groupTail h source first)
    (source.length - 1 - groupTail h source first)
  rcases Nat.lt_or_ge (groupTail h source first) i with hbehind | hinside
  · -- what is behind the tail has no link
    obtain ⟨j, rfl⟩ := Nat.exists_eq_add_one_of_ne_zero (Nat.ne_of_gt (Nat.zero_lt_of_lt hbehind))
    have hfollows := hbelongs j (by omega) (by rw [← Diagnostics.groupEnd]; omega)
    exact absurd hlinked (hnested.followers j t hfollows)
  · rcases Nat.eq_or_lt_of_le hi with rfl | hlt
    · rw [← hnamed t hlinked]
      exact hbound
    · have hrun := hcases.resolve_left (by omega)
      exact Nat.le_trans (hnested.inside first _ i t hrun hlt hinside hlinked) hbound

/-- A group is a piece of the list that holds what its light diagnostics name. -/
structure Grouped (h : Heap) (source : List Nat) (a : Action) : Prop where
  nonempty : 0 < a.group.length
  whole : a.groupFirst + a.group.length ≤ source.length
  group : ∀ k < a.group.length, a.group[k]? = source[a.groupFirst + k]?
  links : ∀ i t, Linked h source i t → a.groupFirst ≤ i →
    i < a.groupFirst + a.group.length → t < a.groupFirst + a.group.length

def Action.Covers (a : Action) (j : Nat) : Prop :=
  a.groupFirst ≤ j ∧ j < a.groupFirst + a.group.length

theorem grouped_of_last {d : Nat} (hi : i ≤ last) (hlast : last < source.length)
    (hlinks : ∀ j t, i ≤ j → j ≤ last → Linked h source j t → t ≤ last) :
    Grouped h source ⟨d, (source.drop i).take (last + 1 - i), i⟩ ∧
      ((source.drop i).take (last + 1 - i)).length = last + 1 - i := by
  have hlength : ((source.drop i).take (last + 1 - i)).length = last + 1 - i := by
    rw [List.length_take, List.length_drop]
    omega
  refine ⟨⟨?_, ?_, fun k hk => ?_, fun j t hlinked hj hlt => ?_⟩, hlength⟩
  all_goals simp only [hlength] at *
  · omega
  · omega
  · rw [List.getElem?_take_of_lt hk, List.getElem?_drop]
  · have ht := hlinks j t hj (by omega) hlinked
    omega

theorem appendActions_spec (canonical : List (Option Nat))
    (hok : compileBatch = true ∨ Nested h source) (rounds i : Nat)
    (hrounds : source.length ≤ i + rounds) :
    let actions := appendActions h source canonical compileBatch rounds i
    (∀ a ∈ actions, i ≤ a.groupFirst ∧ Grouped h source a) ∧
      actions.Pairwise (fun a b => a.groupFirst + a.group.length ≤ b.groupFirst) ∧
      ∀ j d, i ≤ j → source[j]? = some d → messagePresent canonical d →
        ∃ a ∈ actions, a.Covers j := by
  induction rounds generalizing i with
  | zero =>
    refine ⟨by simp [appendActions], by simp [appendActions], fun j d hj hd => ?_⟩
    have hlt := (List.getElem?_eq_some_iff.1 hd).1
    omega
  | succ rounds ih =>
    rw [appendActions]
    cases hd : source[i]? with
    | none =>
      refine ⟨by simp, by simp, fun j d hj hd' => ?_⟩
      have hlt := (List.getElem?_eq_some_iff.1 hd').1
      have hge := List.getElem?_eq_none_iff.1 hd
      omega
    | some d =>
      have hi : i < source.length := (List.getElem?_eq_some_iff.1 hd).1
      dsimp only
      split
      case isFalse hremoved =>
        obtain ⟨hall, hpairwise, hcovers⟩ := ih (i + 1) (by omega)
        refine ⟨fun a ha => ?_, hpairwise, fun j e hj he hpresent => ?_⟩
        · exact ⟨by have hle := (hall a ha).1; omega, (hall a ha).2⟩
        · rcases Nat.eq_or_lt_of_le hj with rfl | hlt
          · cases hd.symm.trans he
            exact absurd hpresent hremoved
          · exact hcovers j e hlt he hpresent
      case isTrue =>
        generalize hlast : (if compileBatch = true then source.length - 1
          else groupEnd h source i) = last
        have hbounds : i ≤ last ∧ last < source.length ∧
            ∀ j t, i ≤ j → j ≤ last → Linked h source j t → t ≤ last := by
          split at hlast
          case isTrue =>
            refine ⟨by omega, by omega, fun j t _ _ hlinked => ?_⟩
            obtain ⟨f, -, -, -, -, ht⟩ := linked_iff.1 hlinked
            omega
          case isFalse hno =>
            subst hlast
            obtain ⟨hfirst, -⟩ := groupTail_spec (h := h) hi
            obtain ⟨hle, hlt⟩ := groupEnd_bounds (h := h) hi
            exact ⟨by omega, hlt, fun j t hj hj' hlinked =>
              (hok.resolve_left hno).groupEnd hi hj hj' hlinked⟩
        obtain ⟨hile, hlt, hlinks⟩ := hbounds
        obtain ⟨hgrouped, hlength⟩ := grouped_of_last (d := d) hile hlt hlinks
        obtain ⟨hall, hpairwise, hcovers⟩ := ih (last + 1) (by omega)
        refine ⟨fun a ha => ?_, List.pairwise_cons.2 ⟨fun a ha => ?_, hpairwise⟩,
          fun j e hj he hpresent => ?_⟩
        · rcases List.mem_cons.1 ha with rfl | ha
          · exact ⟨Nat.le_refl i, hgrouped⟩
          · exact ⟨by have hle := (hall a ha).1; omega, (hall a ha).2⟩
        · have hle := (hall a ha).1
          simp only [hlength]
          omega
        · rcases Nat.lt_or_ge last j with hbehind | hinside
          · obtain ⟨a, ha, hcover⟩ := hcovers j e hbehind he hpresent
            exact ⟨a, List.mem_cons_of_mem _ ha, hcover⟩
          · refine ⟨_, List.mem_cons_self, hj, ?_⟩
            simp only [hlength]
            omega

theorem covers_unique {actions : List Action} {a b : Action}
    (hpairwise : actions.Pairwise fun a b => a.groupFirst + a.group.length ≤ b.groupFirst)
    (ha : a ∈ actions) (hb : b ∈ actions) (hcover : a.Covers j) (hcover' : b.Covers j) : a = b := by
  induction hpairwise with
  | nil => simp at ha
  | @cons c actions hbefore _ ih =>
    obtain ⟨hj, hlt⟩ := hcover
    obtain ⟨hj', hlt'⟩ := hcover'
    rcases List.mem_cons.1 ha with hac | hamem <;> rcases List.mem_cons.1 hb with hbc | hbmem
    · rw [hac, hbc]
    · have hle := hbefore b hbmem
      rw [← hac] at hle
      omega
    · have hle := hbefore a hamem
      rw [← hbc] at hle
      omega
    · exact ih hamem hbmem

theorem getElem?_filterMap {l : List Nat} {φ : Nat → Option Shown} (hall : ∀ d ∈ l, (φ d).isSome)
    (k : Nat) : (l.filterMap φ)[k]? = l[k]?.bind φ := by
  induction l generalizing k with
  | nil => rfl
  | cons d l ih =>
    obtain ⟨m, hm⟩ := Option.isSome_iff_exists.1 (hall d List.mem_cons_self)
    rw [List.filterMap_cons_some hm]
    cases k with
    | zero => exact hm.symm
    | succ k => exact ih (fun e he => hall e (List.mem_cons_of_mem d he)) k

@[simp]
theorem diagnostic_rebase (first : Nat) (m : Shown) :
    (rebase first m).diagnostic = m.diagnostic := by
  rw [rebase]
  split
  · rfl
  · split <;> rfl

@[simp]
theorem light_rebase (first : Nat) (m : Shown) :
    (rebase first m).fields.light = m.fields.light := by
  rw [rebase]
  split
  · rfl
  · split <;> rfl

theorem contextFollowsIndex_rebase {m : Shown} (hi : first ≤ t)
    (hindex : m.fields.contextFollowsIndex = some (t : Int)) :
    (rebase first m).fields.contextFollowsIndex = some ((t - first : Nat) : Int) := by
  rw [rebase, hindex]
  dsimp only
  rw [if_neg (by omega)]
  exact congrArg some (Int.ofNat_sub hi).symm

theorem renderGroupView_spec {a : Action} {k : Nat} (hvalid : ∀ d ∈ source, d < h.length)
    (hgrouped : Grouped h source a) (hk : k < a.group.length) :
    ∃ d f, source[a.groupFirst + k]? = some d ∧ h[d]? = some f ∧
      (renderGroupView h a)[k]? =
        some (if a.groupFirst = 0 then ⟨d, f⟩ else rebase a.groupFirst ⟨d, f⟩) := by
  have hlt : a.groupFirst + k < source.length := by
    have hwhole := hgrouped.whole
    omega
  have hd : source[a.groupFirst + k]? = some source[a.groupFirst + k] :=
    List.getElem?_eq_getElem hlt
  have hdlt := hvalid _ (List.getElem_mem hlt)
  have hf : h[source[a.groupFirst + k]]? = some h[source[a.groupFirst + k]] :=
    List.getElem?_eq_getElem hdlt
  have hall (d : Nat) (hmem : d ∈ a.group) :
      ((h[d]?.map fun f => (⟨d, f⟩ : Shown))).isSome := by
    obtain ⟨n, hn, rfl⟩ := List.getElem_of_mem hmem
    have hn' := hgrouped.group n hn
    rw [List.getElem?_eq_getElem hn] at hn'
    have hlt' := hvalid _ (List.mem_of_getElem? hn'.symm)
    rw [List.getElem?_eq_getElem hlt']
    rfl
  have hmessage : (a.group.filterMap fun d => h[d]?.map fun f => (⟨d, f⟩ : Shown))[k]? =
      some ⟨source[a.groupFirst + k], h[source[a.groupFirst + k]]⟩ := by
    rw [getElem?_filterMap hall, hgrouped.group k hk, hd, Option.bind_some, hf, Option.map_some]
  refine ⟨_, _, hd, hf, ?_⟩
  rw [renderGroupView]
  split
  · exact hmessage
  · rw [rebaseGroup, List.getElem?_map, hmessage, Option.map_some]

/-- In the view of its group a light diagnostic names what it names in the list. -/
structure Resolves (h : Heap) (source : List Nat) (a : Action) (i t : Nat) : Prop where
  covers : a.Covers t
  resolves : ∃ m u, (renderGroupView h a)[i - a.groupFirst]? = some m ∧
    source[i]? = some m.diagnostic ∧
    m.fields.contextFollowsIndex = some ((t - a.groupFirst : Nat) : Int) ∧
    (renderGroupView h a)[t - a.groupFirst]? = some u ∧ source[t]? = some u.diagnostic ∧
    hasContextFollowup (renderGroupView h a) (i - a.groupFirst) m.fields

theorem Grouped.resolves {a : Action} (hvalid : ∀ d ∈ source, d < h.length)
    (hgrouped : Grouped h source a) (hlinked : Linked h source i t) (hcovers : a.Covers i) :
    Resolves h source a i t := by
  obtain ⟨f, hf, hlight, hindex, hit, -⟩ := linked_iff.1 hlinked
  have htail := hgrouped.links i t hlinked hcovers.1 hcovers.2
  have hle : a.groupFirst ≤ t := Nat.le_trans hcovers.1 (Nat.le_of_lt hit)
  have hi : a.groupFirst + (i - a.groupFirst) = i := Nat.add_sub_cancel' hcovers.1
  have ht : a.groupFirst + (t - a.groupFirst) = t := Nat.add_sub_cancel' hle
  obtain ⟨d, f', hd, hf', hm⟩ := renderGroupView_spec (k := i - a.groupFirst) hvalid hgrouped (by
    have hlt := hcovers.2
    omega)
  obtain ⟨e, g, he, -, hu⟩ := renderGroupView_spec (k := t - a.groupFirst) hvalid hgrouped (by
    omega)
  rw [hi] at hd
  rw [ht] at he
  rw [fieldsAt, hd, Option.bind_some] at hf
  cases hf.symm.trans hf'
  have hlength := (List.getElem?_eq_some_iff.1 hu).1
  have hshown : (if a.groupFirst = 0 then (⟨d, f⟩ : Shown)
      else rebase a.groupFirst ⟨d, f⟩).fields.contextFollowsIndex =
        some ((t - a.groupFirst : Nat) : Int) := by
    split
    case isTrue hzero => rw [hzero, Nat.sub_zero, hindex]
    case isFalse => exact contextFollowsIndex_rebase hle hindex
  refine ⟨⟨hle, htail⟩, _, _, hm, ?_, hshown, hu, ?_, ?_⟩
  · rw [hd]
    split <;> simp
  · rw [he]
    split <;> simp
  · rw [hasContextFollowup, hshown]
    have hlight' : (if a.groupFirst = 0 then (⟨d, f⟩ : Shown)
        else rebase a.groupFirst ⟨d, f⟩).fields.light = true := by
      split <;> simp [hlight]
    rw [hlight']
    simp
    omega

/-- What the groups of a delivery keep together. -/
structure KeepsContext (h : Heap) (source : List Nat) (canonical : List (Option Nat))
    (start : Nat) (actions : List Action) : Prop where
  covered : ∀ j d, start ≤ j → source[j]? = some d → messagePresent canonical d →
    ∃ a ∈ actions, a.Covers j
  once : ∀ a ∈ actions, ∀ b ∈ actions, ∀ j, a.Covers j → b.Covers j → a = b
  resolves : ∀ a ∈ actions, ∀ i t, Linked h source i t → a.Covers i → Resolves h source a i t

theorem deliveryAppendActions_spec (hvalid : ∀ d ∈ source, d < h.length)
    (hok : compileBatch = true ∨ Nested h source) (canonical : List (Option Nat)) (start : Nat) :
    KeepsContext h source canonical start
      (deliveryAppendActions h source canonical start compileBatch) := by
  obtain ⟨hall, hpairwise, hcovers⟩ :=
    appendActions_spec canonical hok source.length start (Nat.le_add_left _ _)
  exact ⟨hcovers, fun a ha b hb j hcover hcover' => covers_unique hpairwise ha hb hcover hcover',
    fun a ha i t hlinked hcover => (hall a ha).2.resolves hvalid hlinked hcover⟩

end Groups

section Whole

variable {h : Heap} {slot : Option Nat} {exs : List Nat} {acc : Nat}

/-- A list that can be delivered in groups, with its removed messages still in their places. -/
def Divides (h : Heap) (messages : List (Option Nat)) (compileBatch : Bool) : Prop :=
  none ∉ messages ∧ (compileBatch = true ∨ Nested h (copyMessages h messages))

theorem copyMessages_map {messages : List (Option Nat)} (hholes : none ∉ messages)
    (hvalid : ∀ d, some d ∈ messages → d < h.length) :
    (copyMessages h messages).map some = messages := by
  induction messages with
  | nil => rfl
  | cons m messages ih =>
    cases m with
    | none => exact absurd List.mem_cons_self hholes
    | some d =>
      have hcopy : copyMessages h (some d :: messages) = d :: copyMessages h messages := by
        rw [copyMessages, List.filterMap_cons]
        simp [hvalid d List.mem_cons_self, copyMessages]
      rw [hcopy, List.map_cons, ih (fun hmem => hholes (List.mem_cons_of_mem _ hmem))
        fun e he => hvalid e (List.mem_cons_of_mem _ he)]

theorem lt_of_mem_copyMessages {messages : List (Option Nat)} {d : Nat}
    (hd : d ∈ copyMessages h messages) : d < h.length := by
  rw [copyMessages, List.mem_filterMap] at hd
  obtain ⟨m, -, hm⟩ := hd
  obtain ⟨e, -, he⟩ := Option.bind_eq_some_iff.1 hm
  split at he
  case isTrue hlt =>
    cases he
    exact hlt
  case isFalse => cases he

theorem Merged.valid {after : Heap × Option Nat} (hclosed : h.Closed)
    (hmerged : Merged h acc exs after) (d : Nat) (hd : some d ∈ after.1.contents acc) :
    d < after.1.length := by
  rw [hmerged.contents] at hd
  rw [hmerged.same.1]
  rcases List.mem_append.1 hd with hd | hd
  · exact hclosed acc d hd
  · obtain ⟨ex, -, hd⟩ := List.mem_flatMap.1 hd
    rw [moved] at hd
    split at hd
    · simp at hd
    · exact hclosed ex d (List.mem_of_mem_filter hd)

/-- In a sequence of calls that all meet the condition, the diagnostics come in the order of their
arrival, the errors add up and all links lead where they did. If the list divides, its groups keep
light diagnostics with what they name. -/
theorem exceptions_merge (hclosed : h.Closed) (hacc : accumulator slot exs = some acc)
    (hlt : acc < h.length) (hmeets : MeetsAll h slot exs) :
    let after := appendExceptions h slot exs
    let source := copyMessages after.1 (after.1.contents acc)
    Merged h acc exs after ∧ ∀ compileBatch, Divides after.1 (after.1.contents acc) compileBatch →
      source.map some = after.1.contents acc ∧ ∀ canonical start,
        KeepsContext after.1 source canonical start
          (deliveryAppendActions after.1 source canonical start compileBatch) := by
  have hmerged := appendExceptions_merged hacc hlt hmeets
  refine ⟨hmerged, fun compileBatch hdivides => ⟨?_, fun canonical start => ?_⟩⟩
  · exact copyMessages_map hdivides.1 (hmerged.valid hclosed)
  · exact deliveryAppendActions_spec (fun d hd => lt_of_mem_copyMessages hd) hdivides.2 canonical
      start

/-- Two exceptions: one with an error, one with a light diagnostic and its context. -/
def twoExceptions (messages : List (Option Nat)) : Heap :=
  [{ errorCount := 1, contents := messages }, { errorCount := 1, contents := [some 3, some 4] },
    { severity := some .fatalError },
    { severity := some .fatalError, light := true, contextFollowsIndex := some 1 },
    { severity := some .fatalError }]

theorem twoExceptions_closed {messages : List (Option Nat)}
    (hvalid : ∀ d, some d ∈ messages → d < 5) : (twoExceptions messages).Closed := by
  intro r d hd
  match r, hd with
  | 0, hd => exact hvalid d hd
  | 1, hd =>
    show d < 5
    rcases List.mem_cons.1 hd with heq | hd
    · cases heq
      decide
    · cases List.mem_singleton.1 hd
      decide
  | 2, hd => cases hd
  | 3, hd => cases hd
  | 4, hd => cases hd
  | r + 5, hd => cases hd

/-- Merged into an exception without diagnostics. -/
theorem exceptions_merge_empty :
    let after := appendExceptions (twoExceptions []) (some 0) [1]
    let source := copyMessages after.1 (after.1.contents 0)
    Merged (twoExceptions []) 0 [1] after ∧
      ∀ compileBatch, Divides after.1 (after.1.contents 0) compileBatch →
        source.map some = after.1.contents 0 ∧ ∀ canonical start,
          KeepsContext after.1 source canonical start
            (deliveryAppendActions after.1 source canonical start compileBatch) := by
  refine exceptions_merge (twoExceptions_closed fun d hd => by simp at hd) rfl (by decide)
    ⟨fun pending hpending _ => ?_, trivial⟩
  cases hpending
  exact ⟨.inr (by decide), by decide⟩

/-- Merged behind an error, the light diagnostic names itself. -/
theorem exceptions_merge_fails :
    ¬ ∀ (h : Heap) (slot : Option Nat) (exs : List Nat) (acc : Nat), h.Closed →
      accumulator slot exs = some acc → acc < h.length → ∀ e ∈ exs, ∀ i t,
        Links h (h.contents e) i t →
          ((appendExceptions h slot exs).1.contents acc)[t]? = (h.contents e)[t]? := by
  intro hall
  have hclosed : (twoExceptions [some 2]).Closed := twoExceptions_closed fun d hd => by
    cases List.mem_singleton.1 hd
    decide
  have hsame := hall (twoExceptions [some 2]) (some 0) [1] 0 hclosed rfl (by decide) 1
    List.mem_cons_self 0 1 ⟨3, _, rfl, rfl, rfl, rfl, by decide, 4, rfl⟩
  exact absurd hsame (by decide)

end Whole

end XPerl.Diagnostics
