import Mathlib.Data.List.ProdSigma

/-! Loops that store one value for each key. -/

namespace XPerl.Framework.Fill

variable {ε κ β : Type}

/-- What a loop over `keys` leaves: at the place of each key its value, and all else as before. -/
structure Filled (place : κ → Nat) (value : κ → Except ε β) (keys : List κ)
    (before after : List β) : Prop where
  length : after.length = before.length
  stored : ∀ key ∈ keys, ∃ v, value key = .ok v ∧ after[place key]? = some v
  others : ∀ i, (∀ key ∈ keys, place key ≠ i) → after[i]? = before[i]?

/-- How the loop ends: with all values stored, or at a value that fails. -/
def Outcome (place : κ → Nat) (value : κ → Except ε β) (keys : List κ) (before : List β) :
    Except ε (List β) → Prop
  | .ok after => Filled place value keys before after
  | .error stop => ∃ key ∈ keys, value key = .error stop

variable {place : κ → Nat} {keys : List κ}

theorem foldlM_outcome {value : κ → Except ε β}
    {step : List β → κ → Except ε (List β)} {before : List β}
    (hstep : ∀ key ∈ keys, ∀ data : List β, data.length = before.length →
      step data key = (fun v => data.set (place key) v) <$> value key)
    (hplace : ∀ key ∈ keys, place key < before.length)
    (hapart : keys.Pairwise fun key key' => place key ≠ place key') :
    Outcome place value keys before (keys.foldlM step before) := by
  induction keys generalizing before with
  | nil => exact ⟨rfl, fun key hkey => absurd hkey List.not_mem_nil, fun _ _ => rfl⟩
  | cons key keys ih =>
    obtain ⟨hfirst, hrest⟩ := List.pairwise_cons.1 hapart
    have hhere : place key < before.length := hplace key List.mem_cons_self
    rw [List.foldlM_cons, hstep key List.mem_cons_self before rfl]
    cases hvalue : value key with
    | error stop => exact ⟨key, List.mem_cons_self, hvalue⟩
    | ok v =>
      change Outcome place value _ before (keys.foldlM step (before.set (place key) v))
      have hlen : (before.set (place key) v).length = before.length := List.length_set
      have hnext : Outcome place value keys (before.set (place key) v)
          (keys.foldlM step (before.set (place key) v)) := by
        apply ih
        · intro key' hkey' data hdata
          exact hstep key' (List.mem_cons_of_mem key hkey') data (hdata.trans hlen)
        · intro key' hkey'
          rw [hlen]
          exact hplace key' (List.mem_cons_of_mem key hkey')
        · exact hrest
      cases hrun : keys.foldlM step (before.set (place key) v) with
      | error stop =>
        rw [hrun] at hnext
        obtain ⟨key', hkey', hstop⟩ := hnext
        exact ⟨key', List.mem_cons_of_mem key hkey', hstop⟩
      | ok after =>
        rw [hrun] at hnext
        refine ⟨hnext.length.trans hlen, ?_, ?_⟩
        · intro key' hkey'
          rcases List.mem_cons.1 hkey' with rfl | hkey'
          · refine ⟨v, hvalue, ?_⟩
            rw [hnext.others _ (fun other hother => (hfirst other hother).symm)]
            exact List.getElem?_set_self hhere
          · exact hnext.stored key' hkey'
        · intro i hi
          rw [hnext.others i (fun other hother => hi other (List.mem_cons_of_mem key hother))]
          exact List.getElem?_set_ne (hi key List.mem_cons_self)

theorem pairwise_place (hnodup : keys.Nodup)
    (hinj : ∀ key ∈ keys, ∀ key' ∈ keys, place key = place key' → key = key') :
    keys.Pairwise fun key key' => place key ≠ place key' :=
  hnodup.imp_of_mem fun hkey hkey' hne heq => hne (hinj _ hkey _ hkey' heq)

theorem foldlM_product {σ ι : Type} (step : List β → σ × ι → Except ε (List β)) (rows : List σ)
    (cols : List ι) (data : List β) :
    rows.foldlM (fun data row => cols.foldlM (fun data col => step data (row, col)) data) data =
      (rows.product cols).foldlM step data := by
  induction rows generalizing data with
  | nil => rfl
  | cons row rows ih =>
    rw [List.foldlM_cons, List.product, List.flatMap_cons, List.foldlM_append, List.foldlM_map]
    cases cols.foldlM (fun data col => step data (row, col)) data with
    | error stop => rfl
    | ok next => exact ih next

theorem Outcome.eq_ok {value : κ → Except ε β}
    {before data : List β} {run : Except ε (List β)} (h : Outcome place value keys before run)
    (hlen : data.length = before.length)
    (hvalue : ∀ key ∈ keys, ∃ v, value key = .ok v ∧ data[place key]? = some v)
    (hcover : ∀ i < before.length, ∃ key ∈ keys, place key = i) : run = .ok data := by
  cases run with
  | error stop =>
    obtain ⟨key, hkey, hstop⟩ := h
    obtain ⟨v, hv, -⟩ := hvalue key hkey
    rw [hstop] at hv
    cases hv
  | ok after =>
    apply congrArg Except.ok
    apply List.ext_getElem?
    intro i
    by_cases hi : i < before.length
    · obtain ⟨key, hkey, rfl⟩ := hcover i hi
      obtain ⟨v, hv, hafter⟩ := h.stored key hkey
      obtain ⟨w, hw, hdata⟩ := hvalue key hkey
      rw [hv] at hw
      rw [hafter, hdata, Except.ok.inj hw]
    · rw [List.getElem?_eq_none (by rw [h.length]; omega), List.getElem?_eq_none (by omega)]

end XPerl.Framework.Fill
