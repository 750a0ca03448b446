import Mathlib.Tactic.Common

/-! State-passing programs that may throw part way: rules that run them step by step, and their runs. -/

namespace XPerl.Framework.Exec

variable {ε σ τ α β ι : Type}

/-- From `s`, program `m` returns into `Q` or throws into `E`. -/
def wp (m : EStateM ε σ α) (s : σ) (Q : α → σ → Prop) (E : ε → σ → Prop) : Prop :=
  match m.run s with
  | .ok a s' => Q a s'
  | .error e s' => E e s'

abbrev returns (m : EStateM ε σ α) (s : σ) (Q : α → σ → Prop) : Prop :=
  wp m s Q fun _ _ => False

/-- State after a program, whether it returned or threw. -/
def stateAfter (m : EStateM ε σ α) (s : σ) : σ :=
  match m.run s with
  | .ok _ s' => s'
  | .error _ s' => s'

def throwIf (c : Prop) [Decidable c] (e : ε) : EStateM ε σ Unit :=
  if c then throw e else pure ()

variable {Q Q' : α → σ → Prop} {E E' : ε → σ → Prop} {s : σ}

@[simp] theorem wp_pure (a : α) : wp (pure a : EStateM ε σ α) s Q E ↔ Q a s := Iff.rfl

@[simp] theorem wp_throw (e : ε) : wp (throw e : EStateM ε σ α) s Q E ↔ E e s := Iff.rfl

@[simp] theorem wp_get {Q : σ → σ → Prop} :
    wp (get : EStateM ε σ σ) s Q E ↔ Q s s := Iff.rfl

@[simp] theorem wp_set {Q : PUnit → σ → Prop} (t : σ) :
    wp (set t : EStateM ε σ PUnit) s Q E ↔ Q ⟨⟩ t := Iff.rfl

@[simp] theorem wp_modify {Q : PUnit → σ → Prop} (f : σ → σ) :
    wp (modify f : EStateM ε σ PUnit) s Q E ↔ Q ⟨⟩ (f s) := Iff.rfl

@[simp] theorem wp_bind {Q : β → σ → Prop} (m : EStateM ε σ α) (f : α → EStateM ε σ β) :
    wp (m >>= f) s Q E ↔ wp m s (fun a t => wp (f a) t Q E) E := by
  show wp (EStateM.bind m f) s Q E ↔ _
  unfold wp EStateM.run EStateM.bind
  cases m s <;> rfl

@[simp] theorem wp_map {Q : β → σ → Prop} (f : α → β) (m : EStateM ε σ α) :
    wp (f <$> m) s Q E ↔ wp m s (fun a t => Q (f a) t) E := by
  show wp (EStateM.map f m) s Q E ↔ _
  unfold wp EStateM.run EStateM.map
  cases m s <;> rfl

@[simp] theorem wp_ite (c : Prop) [Decidable c] (m n : EStateM ε σ α) :
    wp (if c then m else n) s Q E ↔ (c → wp m s Q E) ∧ (¬c → wp n s Q E) := by
  by_cases h : c <;> simp [h]

@[simp] theorem wp_throwIf {Q : Unit → σ → Prop} (c : Prop) [Decidable c] (e : ε) :
    wp (throwIf c e : EStateM ε σ Unit) s Q E ↔ (c → E e s) ∧ (¬c → Q () s) := by
  simp [throwIf]

theorem wp_mono {m : EStateM ε σ α} (h : wp m s Q E) (hQ : ∀ a t, Q a t → Q' a t)
    (hE : ∀ e t, E e t → E' e t) : wp m s Q' E' := by
  unfold wp at h ⊢
  cases hm : m.run s with
  | ok a t => rw [hm] at h; exact hQ a t h
  | error e t => rw [hm] at h; exact hE e t h

theorem wp_and {m : EStateM ε σ α} (h : wp m s Q E) (h' : wp m s Q' E') :
    wp m s (fun a t => Q a t ∧ Q' a t) (fun e t => E e t ∧ E' e t) := by
  unfold wp at h h' ⊢
  cases hm : m.run s with
  | ok a t => rw [hm] at h h'; exact ⟨h, h'⟩
  | error e t => rw [hm] at h h'; exact ⟨h, h'⟩

theorem wp_of_returns {m : EStateM ε σ α} (h : returns m s Q) (hQ : ∀ a t, Q a t → Q' a t) :
    wp m s Q' E := wp_mono h hQ fun _ _ => False.elim

theorem wp_stateAfter {m : EStateM ε σ α} {P : σ → Prop}
    (h : wp m s (fun _ t => P t) (fun _ t => P t)) : P (stateAfter m s) := by
  unfold wp at h
  unfold stateAfter
  cases hm : m.run s with
  | ok a t => rw [hm] at h; exact h
  | error e t => rw [hm] at h; exact h

theorem stateAfter_of_returns {m : EStateM ε σ α} (h : returns m s Q) :
    ∃ a, Q a (stateAfter m s) := by
  unfold returns wp at h
  unfold stateAfter
  cases hm : m.run s with
  | ok a t => rw [hm] at h; exact ⟨a, h⟩
  | error e t => rw [hm] at h; exact h.elim

theorem wp_forM_range {n : Nat} {f : Nat → EStateM ε σ PUnit} (I : Nat → σ → Prop)
    (h0 : I 0 s) (hstep : ∀ i < n, ∀ t, I i t → wp (f i) t (fun _ t' => I (i + 1) t') E) :
    wp ((List.range n).forM f) s (fun _ t => I n t) E := by
  have hgen : ∀ m k t, k + m = n → I k t →
      wp ((List.range' k m).forM f) t (fun _ t' => I n t') E := by
    intro m
    induction m with
    | zero =>
      intro k t hk ht
      simpa [← hk] using ht
    | succ m ih =>
      intro k t hk ht
      rw [List.range'_succ, List.forM_eq_forM, List.forM_cons, wp_bind]
      refine wp_mono (hstep k (by omega) t ht) (fun _ t' ht' => ?_) (fun _ _ he => he)
      exact ih (k + 1) t' (by omega) ht'
  rw [List.range_eq_range']
  exact hgen n 0 s (by omega) h0

theorem run_eq_of_wp {m m' : EStateM ε σ α} (h : ∀ Q E, wp m s Q E ↔ wp m' s Q E) :
    m.run s = m'.run s := by
  have hsame := (h (fun a t => m'.run s = .ok a t) fun e t => m'.run s = .error e t).mpr (by
    unfold wp
    cases m'.run s <;> rfl)
  unfold wp at hsame
  cases hm : m.run s with
  | ok a t => rw [hm] at hsame; exact hsame.symm
  | error e t => rw [hm] at hsame; exact hsame.symm

theorem run_bind (m : EStateM ε σ α) (g : α → EStateM ε σ β) (s : σ) :
    (m >>= g).run s = match m.run s with
      | .ok a t => (g a).run t
      | .error e t => .error e t := by
  show EStateM.bind m g s = _
  unfold EStateM.run EStateM.bind
  cases m s <;> rfl

theorem run_modify_bind (f : σ → σ) (g : PUnit → EStateM ε σ α) (s : σ) :
    (modify f >>= g).run s = (g ⟨⟩).run (f s) := rfl

theorem run_bind_congr {m m' : EStateM ε σ α} {f : α → β} {g g' : α → EStateM ε σ ι}
    {P P' : α → σ → Prop} (hm : f <$> m = f <$> m') (h : wp m s P fun _ _ => True)
    (h' : wp m' s P' fun _ _ => True)
    (hg : ∀ a a' t, f a = f a' → P a t → P' a' t → (g a).run t = (g' a').run t) :
    (m >>= g).run s = (m' >>= g').run s := by
  have hm' : (f <$> m).run s = (f <$> m').run s := by rw [hm]
  simp only [← bind_pure_comp, run_bind] at hm' ⊢
  unfold wp at h h'
  cases hr : m.run s with
  | ok a t =>
    cases hr' : m'.run s with
    | ok a' t' =>
      rw [hr, hr'] at hm'
      rw [hr] at h
      rw [hr'] at h'
      obtain ⟨hf, rfl⟩ : f a = f a' ∧ t = t' := by simpa using hm'
      exact hg a a' t hf h h'
    | error e' t' =>
      rw [hr, hr'] at hm'
      simp at hm'
  | error e t =>
    cases hr' : m'.run s with
    | ok a' t' =>
      rw [hr, hr'] at hm'
      simp at hm'
    | error e' t' =>
      rw [hr, hr'] at hm'
      simpa using hm'

theorem bind_forget {step : Option α → EStateM ε σ (Option α)} {o : Option α}
    {g : Option α → EStateM ε σ β} (h : (fun _ => none) <$> step o = step none)
    (hg : ∀ o, g o = g none) : (step o >>= g) = step none >>= g := by
  rw [← h, bind_map_left]
  exact bind_congr hg

section Simulation

variable {R : σ → τ → Prop} {P : α → σ → Prop} {m : EStateM ε σ α} {a : EStateM ε τ α} {t : τ}

/-- `m` runs as `a` does: the same result or error, in a related state. Results of `m` also satisfy
`P`. -/
def Simulates (R : σ → τ → Prop) (P : α → σ → Prop) (m : EStateM ε σ α) (a : EStateM ε τ α)
    (s : σ) (t : τ) : Prop :=
  wp m s (fun r s' => P r s' ∧ returns a t fun r' t' => r' = r ∧ R s' t')
    (fun e s' => wp a t (fun _ _ => False) fun e' t' => e' = e ∧ R s' t')

theorem wp_bind_of_returns {P : β → σ → Prop} {b : EStateM ε σ β} {g : β → EStateM ε σ α}
    (h : returns b s P) : ∃ r s', P r s' ∧ ∀ Q E, wp (b >>= g) s Q E ↔ wp (g r) s' Q E := by
  unfold returns wp at h
  cases hr : b.run s with
  | error e s' => rw [hr] at h; exact h.elim
  | ok r s' =>
    rw [hr] at h
    refine ⟨r, s', h, fun Q E => ?_⟩
    rw [wp_bind]
    simp only [wp, hr]

theorem Simulates.bind {P' : β → σ → Prop} {f : α → EStateM ε σ β} {g : α → EStateM ε τ β}
    (h : Simulates R P m a s t)
    (hf : ∀ r s' t', P r s' → R s' t' → Simulates R P' (f r) (g r) s' t') :
    Simulates R P' (m >>= f) (a >>= g) s t := by
  unfold Simulates
  rw [wp_bind]
  refine wp_mono h ?_ ?_
  · rintro r s' ⟨hp, ha⟩
    obtain ⟨_, t', ⟨rfl, hR⟩, hrun⟩ := wp_bind_of_returns (g := g) ha
    simp only [returns, hrun]
    exact hf _ s' t' hp hR
  · intro e s' ha
    refine (wp_bind ..).mpr (wp_mono ha (fun _ _ => False.elim) fun _ _ h => h)

theorem Simulates.right {b : EStateM ε τ β} {g : β → EStateM ε τ α}
    (h : returns b t fun r t' => Simulates R P m (g r) s t') : Simulates R P m (b >>= g) s t := by
  obtain ⟨r, t', hsim, hrun⟩ := wp_bind_of_returns (g := g) h
  unfold Simulates returns
  simp only [hrun]
  exact hsim

theorem Simulates.throwIf {c c' : Prop} [Decidable c] [Decidable c'] (hc : c ↔ c') (e : ε)
    (hR : R s t) :
    Simulates R (fun _ s' => s' = s ∧ ¬c) (throwIf c e) (throwIf c' e) s t := by
  simp only [Simulates, returns, wp_throwIf]
  exact ⟨fun h => ⟨fun _ => ⟨trivial, hR⟩, fun h' => absurd (hc.mp h) h'⟩,
    fun h => ⟨⟨trivial, h⟩, fun h' => absurd (hc.mpr h') h, fun _ => ⟨trivial, hR⟩⟩⟩

theorem Simulates.related (h : Simulates R P m a s t) :
    wp m s (fun r s' => P r s' ∧ ∃ t', R s' t') fun _ s' => ∃ t', R s' t' := by
  refine wp_mono h ?_ ?_
  · rintro r s' ⟨hp, ha⟩
    obtain ⟨-, t', ⟨-, hR⟩, -⟩ := wp_bind_of_returns (g := pure) ha
    exact ⟨hp, t', hR⟩
  · intro e s' ha
    unfold wp at ha
    cases hr : a.run t with
    | ok r t' => rw [hr] at ha; exact ha.elim
    | error e' t' => rw [hr] at ha; exact ⟨t', ha.2⟩

theorem Simulates.step {P' : β → σ → Prop} {f : α → EStateM ε σ β} {b : EStateM ε τ β}
    (h : returns m s fun r s' => Simulates R P' (f r) b s' t) :
    Simulates R P' (m >>= f) b s t := by
  unfold Simulates
  rw [wp_bind]
  exact wp_of_returns h fun _ _ hs => hs

end Simulation

/-! Properties of the state that a program keeps, whether it returns or throws. -/

variable {I J : σ → Prop}

def Preserves (I : σ → Prop) (m : EStateM ε σ α) : Prop :=
  ∀ s, I s → wp m s (fun _ => I) fun _ => I

theorem preserves_pure (a : α) : Preserves I (pure a : EStateM ε σ α) := fun _ h => h

theorem preserves_throw (e : ε) : Preserves I (throw e : EStateM ε σ α) := fun _ h => h

theorem preserves_get : Preserves I (get : EStateM ε σ σ) := fun _ h => wp_get.2 h

theorem preserves_modify {f : σ → σ} (h : ∀ s, I s → I (f s)) :
    Preserves I (modify f : EStateM ε σ PUnit) := fun s hs => (wp_modify f).2 (h s hs)

theorem preserves_bind {m : EStateM ε σ α} {f : α → EStateM ε σ β} (h : Preserves I m)
    (h' : ∀ a, Preserves I (f a)) : Preserves I (m >>= f) := by
  intro s hs
  rw [wp_bind]
  exact wp_mono (h s hs) (fun a t ht => h' a t ht) fun _ _ ht => ht

theorem preserves_get_bind {f : σ → EStateM ε σ α}
    (h : ∀ s, I s → wp (f s) s (fun _ => I) fun _ => I) : Preserves I (get >>= f) := by
  intro s hs
  rw [wp_bind, wp_get]
  exact h s hs

theorem preserves_map {m : EStateM ε σ α} (f : α → β) (h : Preserves I m) :
    Preserves I (f <$> m) := by
  intro s hs
  rw [wp_map]
  exact h s hs

theorem preserves_ite {c : Prop} [Decidable c] {m n : EStateM ε σ α} (h : c → Preserves I m)
    (h' : ¬ c → Preserves I n) : Preserves I (if c then m else n) := by
  split_ifs with hc
  · exact h hc
  · exact h' hc

theorem preserves_throwIf (c : Prop) [Decidable c] (e : ε) :
    Preserves I (throwIf c e : EStateM ε σ Unit) := fun _ h => (wp_throwIf c e).2 ⟨fun _ => h, fun _ => h⟩

/-! Programs that only move a state along a preorder, whether they return or throw. -/

variable {R : σ → σ → Prop}

/-- A relation that steps in sequence stay in. -/
structure IsDrift (R : σ → σ → Prop) : Prop where
  refl : ∀ s, R s s
  trans : ∀ {s t u}, R s t → R t u → R s u

/-- Every way out of `m` leads from `s` along the relation. -/
def Drifts (R : σ → σ → Prop) (m : EStateM ε σ α) (s : σ) : Prop :=
  wp m s (fun _ t => R s t) fun _ t => R s t

theorem drifts_get_bind {f : σ → EStateM ε σ α} (h : Drifts R (f s) s) :
    Drifts R (get >>= f) s := h

theorem drifts_modify {f : σ → σ} (h : R s (f s)) :
    Drifts R (modify f : EStateM ε σ PUnit) s := h

theorem drifts_map {m : EStateM ε σ α} (f : α → β) (h : Drifts R m s) : Drifts R (f <$> m) s := by
  rw [Drifts, wp_map]
  exact h

section Drift

variable (hR : IsDrift R)
include hR

theorem drifts_pure (a : α) : Drifts R (pure a : EStateM ε σ α) s := hR.refl s

theorem drifts_throw (e : ε) : Drifts R (throw e : EStateM ε σ α) s := hR.refl s

theorem drifts_throwIf (c : Prop) [Decidable c] (e : ε) : Drifts R (throwIf c e) s := by
  rw [Drifts, wp_throwIf]
  exact ⟨fun _ => hR.refl s, fun _ => hR.refl s⟩

theorem drifts_bind {m : EStateM ε σ α} {f : α → EStateM ε σ β} (hm : Drifts R m s)
    (hf : ∀ a t, Drifts R (f a) t) : Drifts R (m >>= f) s := by
  rw [Drifts, wp_bind]
  apply wp_mono hm
  · intro a t hst
    exact wp_mono (hf a t) (fun _ _ => hR.trans hst) (fun _ _ => hR.trans hst)
  · intro _ _ hst
    exact hst

theorem drifts_forM {f : ι → EStateM ε σ PUnit} (hf : ∀ i t, Drifts R (f i) t) (xs : List ι) :
    Drifts R (xs.forM f) s := by
  induction xs generalizing s with
  | nil => exact hR.refl s
  | cons x xs ih =>
    rw [List.forM_eq_forM, List.forM_cons]
    exact drifts_bind hR (hf x s) (fun _ _ => ih)

theorem drifts_mapM {f : ι → EStateM ε σ α} (hf : ∀ i t, Drifts R (f i) t) (xs : List ι) :
    Drifts R (xs.mapM f) s := by
  induction xs generalizing s with
  | nil => exact hR.refl s
  | cons x xs ih =>
    rw [List.mapM_cons]
    apply drifts_bind hR (hf x s)
    intro a t
    apply drifts_bind hR ih
    intro as u
    exact drifts_pure hR _

end Drift

/-- What a program returns or throws. -/
def outcome (m : EStateM ε σ α) (s : σ) : Except ε α :=
  match m.run s with
  | .ok a _ => .ok a
  | .error e _ => .error e

variable {m : EStateM ε σ α}

theorem wp_iff {s : σ} :
    wp m s Q E ↔ (∀ a, outcome m s = .ok a → Q a (stateAfter m s)) ∧
      ∀ e, outcome m s = .error e → E e (stateAfter m s) := by
  unfold wp outcome stateAfter
  cases m.run s <;> simp

theorem run_of_returns {s t : σ} {a : α}
    (h : returns m s fun b t' => b = a ∧ t' = t) : m.run s = .ok a t := by
  unfold returns wp at h
  cases hm : m.run s with
  | ok b t' =>
    rw [hm] at h
    rw [h.1, h.2]
  | error e t' =>
    rw [hm] at h
    exact h.elim

theorem exists_run {s t : σ} {P : α → Prop}
    (h : returns m s fun a t' => t' = t ∧ P a) : ∃ a, m.run s = .ok a t ∧ P a := by
  unfold returns wp at h
  cases hm : m.run s with
  | ok a t' =>
    rw [hm] at h
    obtain ⟨rfl, ha⟩ := h
    exact ⟨a, rfl, ha⟩
  | error e t' =>
    rw [hm] at h
    exact h.elim

theorem wp_of_run {s t : σ} {a : α}
    (h : m.run s = .ok a t) : wp m s Q E ↔ Q a t := by
  unfold wp
  rw [h]

theorem Simulates.outcome {R : σ → τ → Prop} {P : α → σ → Prop}
    {a : EStateM ε τ α} {s : σ} {t : τ} (h : Simulates R P m a s t) :
    outcome m s = outcome a t ∧ R (stateAfter m s) (stateAfter a t) := by
  unfold Simulates wp returns wp at h
  unfold Exec.outcome stateAfter
  cases hm : m.run s with
  | ok r s' =>
    rw [hm] at h
    obtain ⟨-, h⟩ := h
    cases ha : a.run t with
    | ok r' t' =>
      rw [ha] at h
      obtain ⟨rfl, hR⟩ := h
      exact ⟨rfl, hR⟩
    | error e t' => rw [ha] at h; exact h.elim
  | error e s' =>
    rw [hm] at h
    cases ha : a.run t with
    | ok r' t' => rw [ha] at h; exact h.elim
    | error e' t' =>
      rw [ha] at h
      obtain ⟨rfl, hR⟩ := h
      exact ⟨rfl, hR⟩

section Commutes

variable {f : σ → σ}

def Commutes (f : σ → σ) (m : EStateM ε σ α) : Prop :=
  ∀ s Q E, wp m (f s) Q E ↔ wp m s (fun a t => Q a (f t)) fun e t => E e (f t)

theorem Commutes.pure (a : α) : Commutes f (Pure.pure a : EStateM ε σ α) := fun _ _ _ => Iff.rfl

theorem Commutes.throw (e : ε) : Commutes f (MonadExcept.throw e : EStateM ε σ α) :=
  fun _ _ _ => Iff.rfl

variable {c : Prop}

theorem throwIf_congr {c' : Prop} [Decidable c] [Decidable c'] (h : c ↔ c') (e : ε) :
    (throwIf c e : EStateM ε σ Unit) = throwIf c' e := by
  by_cases hc : c
  · rw [Exec.throwIf, Exec.throwIf, if_pos hc, if_pos (h.1 hc)]
  · rw [Exec.throwIf, Exec.throwIf, if_neg hc, if_neg (mt h.2 hc)]

theorem Commutes.throwIf (c : Prop) [Decidable c] (e : ε) :
    Commutes f (throwIf c e : EStateM ε σ Unit) := by
  intro s Q E
  simp only [wp_throwIf]

theorem Commutes.ite [Decidable c] {m n : EStateM ε σ α} (hm : Commutes f m)
    (hn : Commutes f n) : Commutes f (if c then m else n) := by
  split
  · exact hm
  · exact hn

theorem Commutes.bind {m : EStateM ε σ α} {k : α → EStateM ε σ β} (hm : Commutes f m)
    (hk : ∀ a, Commutes f (k a)) : Commutes f (m >>= k) := by
  intro s Q E
  rw [wp_bind, wp_bind, hm s]
  have hrest : (fun a t => wp (k a) (f t) Q E) =
      fun a t => wp (k a) t (fun b t => Q b (f t)) fun e t => E e (f t) := by
    funext a t
    exact propext (hk a t Q E)
  rw [hrest]

theorem Commutes.get {k : σ → EStateM ε σ α} (hsame : ∀ s, k (f s) = k s)
    (hk : ∀ s, Commutes f (k s)) : Commutes f (MonadState.get >>= k) := by
  intro s Q E
  rw [wp_bind, wp_bind, wp_get, wp_get, hsame]
  exact hk s s Q E

theorem Commutes.modify {update : σ → σ} (hsame : ∀ s, update (f s) = f (update s)) :
    Commutes f (modify update : EStateM ε σ PUnit) := by
  intro s Q E
  rw [wp_modify, wp_modify, hsame]

end Commutes

section Runs

variable (step : ι → EStateM ε σ α)

/-- The state after a sequence of operations. -/
def run (s : σ) : List ι → σ
  | [] => s
  | op :: ops => run (stateAfter (step op) s) ops

/-- The operations of a sequence with their outcomes. -/
def trace (s : σ) : List ι → List (ι × Except ε α)
  | [] => []
  | op :: ops => (op, outcome (step op) s) :: trace (stateAfter (step op) s) ops

/-- Each operation of a sequence meets a condition on the state that it starts from. -/
def Along (ok : σ → ι → Prop) (s : σ) : List ι → Prop
  | [] => True
  | op :: ops => ok s op ∧ Along ok (stateAfter (step op) s) ops

instance decidableAlong {ok : σ → ι → Prop} [∀ s op, Decidable (ok s op)] (s : σ) :
    ∀ ops, Decidable (Along step ok s ops)
  | [] => .isTrue trivial
  | _ :: ops => @instDecidableAnd _ _ _ (decidableAlong _ ops)

variable {step} {ok ok' : σ → ι → Prop} {I : σ → Prop} {s : σ}
  {ops ops' : List ι}

theorem run_invariant (hstep : ∀ s op, I s → ok s op → I (stateAfter (step op) s)) (h0 : I s)
    (h : Along step ok s ops) : I (run step s ops) := by
  induction ops generalizing s with
  | nil => exact h0
  | cons op ops ih => exact ih (hstep s op h0 h.1) h.2

theorem run_append :
    run step s (ops ++ ops') = run step (run step s ops) ops' := by
  induction ops generalizing s with
  | nil => rfl
  | cons op ops ih => exact ih

theorem run_map_range {n : Nat} {f : Nat → ι} (I : Nat → σ → Prop) (h0 : I 0 s)
    (hstep : ∀ i < n, ∀ t, I i t → I (i + 1) (stateAfter (step (f i)) t)) :
    I n (run step s ((List.range n).map f)) := by
  induction n with
  | zero => exact h0
  | succ n ih =>
    rw [List.range_succ, List.map_append, run_append]
    exact hstep n (Nat.lt_succ_self n) _ (ih fun i hi => hstep i (Nat.lt_succ_of_lt hi))

theorem along_append : Along step ok s (ops ++ ops') ↔
    Along step ok s ops ∧ Along step ok (run step s ops) ops' := by
  induction ops generalizing s with
  | nil => simp [Along, run]
  | cons op ops ih =>
    simp only [List.cons_append, Along, run, ih, and_assoc]

theorem along_iff : Along step ok s ops ↔
    ∀ before op after, ops = before ++ op :: after → ok (run step s before) op := by
  constructor
  · intro h before op after hsplit
    subst hsplit
    exact (along_append.1 h).2.1
  · intro h
    induction ops generalizing s with
    | nil => trivial
    | cons op ops ih =>
      refine ⟨h [] op ops rfl, ih ?_⟩
      intro before op' after hsplit
      exact h (op :: before) op' after (by rw [hsplit]; rfl)

variable {p : ι → Prop}

theorem Along.and (h : Along step ok s ops) (hp : ∀ op ∈ ops, p op) :
    Along step (fun s op => ok s op ∧ p op) s ops := by
  induction ops generalizing s with
  | nil => trivial
  | cons op ops ih => exact ⟨⟨h.1, hp op (by simp)⟩, ih h.2 fun o ho => hp o (by simp [ho])⟩

theorem along_of_forall (himp : ∀ s op, p op → ok s op) (h : ∀ op ∈ ops, p op) :
    Along step ok s ops := by
  induction ops generalizing s with
  | nil => trivial
  | cons op ops ih => exact ⟨himp _ _ (h op (by simp)), ih fun o ho => h o (by simp [ho])⟩

end Runs

end XPerl.Framework.Exec
