import Mathlib.Data.Finset.Card

/-! Routes along edges, and how many edges a graph without closed trails has. -/

namespace XPerl.Framework.Multigraph

open Relation

section Routes

variable {ν ε : Type} {step step' : ε → ν → ν → Prop} {u v w : ν} {e : ε} {es fs : List ε}

def Route (step : ε → ν → ν → Prop) : ν → List ε → ν → Prop
  | u, [], v => u = v
  | u, e :: es, v => ∃ w, step e u w ∧ Route step w es v

@[simp] theorem route_nil : Route step u [] v ↔ u = v := Iff.rfl

theorem route_cons : Route step u (e :: es) v ↔ ∃ w, step e u w ∧ Route step w es v := Iff.rfl

theorem route_append : Route step u (es ++ fs) v ↔ ∃ w, Route step u es w ∧ Route step w fs v := by
  induction es generalizing u with
  | nil => simp
  | cons e es ih =>
    rw [List.cons_append, route_cons]
    simp only [ih, route_cons]
    constructor
    · intro h
      obtain ⟨x, hstep, w, hes, hfs⟩ := h
      exact ⟨w, ⟨x, hstep, hes⟩, hfs⟩
    · intro h
      obtain ⟨w, ⟨x, hstep, hes⟩, hfs⟩ := h
      exact ⟨x, hstep, w, hes, hfs⟩

theorem route_concat :
    Route step u (es ++ [e]) v ↔ ∃ w, Route step u es w ∧ step e w v := by
  rw [route_append]
  simp only [route_cons, route_nil, exists_eq_right]

theorem Route.mono (h : Route step u es v)
    (hsub : ∀ e ∈ es, ∀ u v, step e u v → step' e u v) : Route step' u es v := by
  induction es generalizing u with
  | nil => exact h
  | cons e es ih =>
    obtain ⟨w, hstep, hrest⟩ := h
    exact ⟨w, hsub e List.mem_cons_self u w hstep,
      ih hrest fun e he => hsub e (List.mem_cons_of_mem _ he)⟩

theorem Route.reaches (h : Route step u es v) :
    ReflTransGen (fun u v => ∃ e, step e u v) u v := by
  induction es generalizing u with
  | nil =>
    rw [route_nil.1 h]
  | cons e es ih =>
    obtain ⟨w, hstep, hrest⟩ := h
    exact (ih hrest).head ⟨e, hstep⟩

theorem exists_route (h : ReflTransGen (fun u v => ∃ e, step e u v) u v) :
    ∃ es, Route step u es v := by
  induction h with
  | refl => exact ⟨[], rfl⟩
  | tail _ hstep ih =>
    obtain ⟨es, hes⟩ := ih
    obtain ⟨e, hstep⟩ := hstep
    exact ⟨es ++ [e], route_concat.2 ⟨_, hes, hstep⟩⟩

theorem Route.unique {root : ν} (hroot : ∀ e u, ¬ step e u root)
    (hone : ∀ e e' u u' v, step e u v → step e' u' v → e = e' ∧ u = u')
    (h : Route step root es v) (h' : Route step root fs v) : es = fs := by
  induction es using List.reverseRecOn generalizing v fs with
  | nil =>
    obtain rfl : root = v := h
    rcases List.eq_nil_or_concat fs with rfl | ⟨fs, f, rfl⟩
    · rfl
    · rw [List.concat_eq_append] at h'
      obtain ⟨w, -, hstep⟩ := route_concat.1 h'
      exact absurd hstep (hroot f w)
  | append_singleton es e ih =>
    obtain ⟨w, hes, hstep⟩ := route_concat.1 h
    rcases List.eq_nil_or_concat fs with rfl | ⟨fs, f, rfl⟩
    · obtain rfl : root = v := h'
      exact absurd hstep (hroot e w)
    · rw [List.concat_eq_append] at h' ⊢
      obtain ⟨w', hfs, hstep'⟩ := route_concat.1 h'
      obtain ⟨rfl, rfl⟩ := hone e f w w' v hstep hstep'
      rw [ih hes hfs]

end Routes

section Undirected

variable {ν ε : Type} {source target : ε → ν} {edges edges' : List ε} {u v w : ν} {e : ε}

def Joins (source target : ε → ν) (e : ε) (u v : ν) : Prop :=
  (source e = u ∧ target e = v) ∨ (source e = v ∧ target e = u)

def Crossing (source target : ε → ν) (edges : List ε) (e : ε) (u v : ν) : Prop :=
  e ∈ edges ∧ Joins source target e u v

def Linked (source target : ε → ν) (edges : List ε) : ν → ν → Prop :=
  ReflTransGen fun u v => ∃ e, Crossing source target edges e u v

def ClosedTrail (source target : ε → ν) (edges : List ε) : Prop :=
  ∃ u es, es ≠ [] ∧ es.Nodup ∧ Route (Crossing source target edges) u es u

theorem Joins.symm (h : Joins source target e u v) : Joins source target e v u := Or.symm h

theorem Linked.symm (h : Linked source target edges u v) : Linked source target edges v u := by
  induction h with
  | refl => exact ReflTransGen.refl
  | tail _ hstep ih =>
    obtain ⟨e, he, hjoins⟩ := hstep
    exact ih.head ⟨e, he, hjoins.symm⟩

theorem Linked.mono (h : Linked source target edges u v) (hsub : edges ⊆ edges') :
    Linked source target edges' u v := by
  refine ReflTransGen.mono (fun a b hab => ?_) u v h
  obtain ⟨e, he, hjoins⟩ := hab
  exact ⟨e, hsub he, hjoins⟩

theorem ClosedTrail.mono (h : ClosedTrail source target edges) (hsub : edges ⊆ edges') :
    ClosedTrail source target edges' := by
  obtain ⟨u, es, hne, hnodup, hroute⟩ := h
  exact ⟨u, es, hne, hnodup, hroute.mono fun e _ a b hab => ⟨hsub hab.1, hab.2⟩⟩

theorem Linked.exists_trail [DecidableEq ε] (h : Linked source target edges u v) :
    ∃ es, es.Nodup ∧ Route (Crossing source target edges) u es v := by
  induction h with
  | refl => exact ⟨[], List.nodup_nil, rfl⟩
  | @tail b c _ hstep ih =>
    obtain ⟨es, hnodup, hes⟩ := ih
    obtain ⟨e, hstep⟩ := hstep
    by_cases he : e ∈ es
    · -- the edge was taken before: the way up to it, or up to its other end, will do
      obtain ⟨xs, ys, rfl⟩ := List.append_of_mem he
      obtain ⟨p, hxs, q, hpq, hys⟩ := route_append.1 hes
      have hprefix : (xs ++ [e]).Nodup := by
        refine hnodup.sublist ?_
        simp
      have hends : p = c ∨ q = c := by
        rcases hstep.2 with ⟨hs, ht⟩ | ⟨hs, ht⟩ <;> rcases hpq.2 with ⟨hs', ht'⟩ | ⟨hs', ht'⟩
        · exact Or.inr (ht'.symm.trans ht)
        · exact Or.inl (ht'.symm.trans ht)
        · exact Or.inl (hs'.symm.trans hs)
        · exact Or.inr (hs'.symm.trans hs)
      rcases hends with rfl | rfl
      · exact ⟨xs, hprefix.sublist (List.sublist_append_left xs [e]), hxs⟩
      · exact ⟨xs ++ [e], hprefix, route_concat.2 ⟨p, hxs, hpq⟩⟩
    · refine ⟨es ++ [e], ?_, route_concat.2 ⟨b, hes, hstep⟩⟩
      exact List.nodup_append.2 ⟨hnodup, List.nodup_singleton e, fun a ha b hb => by
        rw [List.mem_singleton.1 hb]
        exact ne_of_mem_of_not_mem ha he⟩

theorem closedTrail_cons [DecidableEq ε] (hnew : e ∉ edges)
    (h : Linked source target edges (source e) (target e)) :
    ClosedTrail source target (e :: edges) := by
  obtain ⟨es, hnodup, hes⟩ := h.exists_trail
  have hmem : ∀ f ∈ es, f ∈ edges := by
    clear hnodup h
    generalize source e = a at hes
    induction es generalizing a with
    | nil => exact fun f hf => absurd hf List.not_mem_nil
    | cons f es ih =>
      obtain ⟨w, hstep, hrest⟩ := hes
      intro x hx
      rcases List.mem_cons.1 hx with rfl | hx
      · exact hstep.1
      · exact ih w hrest x hx
  refine ⟨target e, e :: es, List.cons_ne_nil e es, List.nodup_cons.2 ⟨?_, hnodup⟩, source e,
    ⟨List.mem_cons_self, Or.inr ⟨rfl, rfl⟩⟩, ?_⟩
  · exact fun he => hnew (hmem e he)
  · exact hes.mono fun f _ a b hab => ⟨List.mem_cons_of_mem e hab.1, hab.2⟩

theorem ClosedTrail.exists_spare [DecidableEq ε] (h : ClosedTrail source target edges) :
    ∃ e ∈ edges, ∀ u v, Linked source target edges u v →
      Linked source target (edges.erase e) u v := by
  obtain ⟨x, es, hne, hnodup, hroute⟩ := h
  cases es with
  | nil => exact absurd rfl hne
  | cons e es =>
    obtain ⟨hnot, -⟩ := List.nodup_cons.1 hnodup
    obtain ⟨y, hxy, hrest⟩ := hroute
    have hback : Linked source target (edges.erase e) y x := by
      refine (hrest.mono fun f hf a b hab => ?_ :
        Route (Crossing source target (edges.erase e)) y es x).reaches
      exact ⟨(List.mem_erase_of_ne (ne_of_mem_of_not_mem hf hnot)).2 hab.1, hab.2⟩
    refine ⟨e, hxy.1, fun u v huv => ?_⟩
    induction huv with
    | refl => exact ReflTransGen.refl
    | tail _ hstep ih =>
      obtain ⟨f, hf, hjoins⟩ := hstep
      refine ih.trans ?_
      by_cases hfe : f = e
      · subst hfe
        have hside : ∀ a b, Joins source target f a b →
            Linked source target (edges.erase f) a b := by
          intro a b hab
          rcases hxy.2 with ⟨rfl, rfl⟩ | ⟨rfl, rfl⟩ <;> rcases hab with ⟨rfl, rfl⟩ | ⟨rfl, rfl⟩
          · exact hback.symm
          · exact hback
          · exact hback
          · exact hback.symm
        exact hside _ _ hjoins
      · exact ReflTransGen.single ⟨f, (List.mem_erase_of_ne hfe).2 hf, hjoins⟩

end Undirected

section Counting

variable {ν ε : Type} [DecidableEq ν] [DecidableEq ε] {source target : ε → ν} {edges : List ε}

theorem exists_classes (vertices : Finset ν) (edges : List ε) :
    ∃ rep : ν → ν, (∀ u v, rep u = rep v ↔ Linked source target edges u v) ∧
      vertices.card ≤ (vertices.image rep).card + edges.length ∧
      (edges.Nodup → ¬ ClosedTrail source target edges →
        (∀ e ∈ edges, source e ∈ vertices ∧ target e ∈ vertices) →
        (vertices.image rep).card + edges.length ≤ vertices.card) := by
  induction edges with
  | nil =>
    refine ⟨id, fun u v => ?_, by simp, fun _ _ _ => by simp⟩
    constructor
    · intro heq
      obtain rfl : u = v := heq
      exact ReflTransGen.refl
    · intro h
      induction h with
      | refl => rfl
      | tail _ hstep _ =>
        obtain ⟨e, he, -⟩ := hstep
        cases he
  | cons e edges ih =>
    obtain ⟨rep, hrep, hmost, hleast⟩ := ih
    let merged : ν → ν := fun x => if rep x = rep (target e) then rep (source e) else rep x
    have hmerged (x : ν) :
        merged x = if rep x = rep (target e) then rep (source e) else rep x := rfl
    have hsource : merged (source e) = rep (source e) := by
      rw [hmerged]
      split <;> rfl
    have htarget : merged (target e) = rep (source e) := by
      rw [hmerged, if_pos rfl]
    have hold {x y : ν} (h : rep x = rep y) : Linked source target (e :: edges) x y :=
      ((hrep x y).1 h).mono (List.subset_cons_self e edges)
    have hnew : Linked source target (e :: edges) (source e) (target e) :=
      ReflTransGen.single ⟨e, List.mem_cons_self, Or.inl ⟨rfl, rfl⟩⟩
    refine ⟨merged, fun x y => ⟨fun heq => ?_, fun h => ?_⟩, ?_, fun hnodup hopen hends => ?_⟩
    · rw [hmerged, hmerged] at heq
      by_cases hx : rep x = rep (target e)
      · rw [if_pos hx] at heq
        by_cases hy : rep y = rep (target e)
        · exact hold (hx.trans hy.symm)
        · rw [if_neg hy] at heq
          exact ((hold hx).trans hnew.symm).trans (hold heq)
      · rw [if_neg hx] at heq
        by_cases hy : rep y = rep (target e)
        · rw [if_pos hy] at heq
          exact ((hold heq).trans hnew).trans (hold hy.symm)
        · rw [if_neg hy] at heq
          exact hold heq
    · induction h with
      | refl => rfl
      | tail _ hstep ih =>
        obtain ⟨f, hf, hjoins⟩ := hstep
        rw [ih]
        rcases List.mem_cons.1 hf with rfl | hf
        · rcases hjoins with ⟨rfl, rfl⟩ | ⟨rfl, rfl⟩
          · exact hsource.trans htarget.symm
          · exact htarget.trans hsource.symm
        · rw [hmerged, hmerged, (hrep _ _).2 (ReflTransGen.single ⟨f, hf, hjoins⟩)]
    · have hsub : vertices.image rep ⊆ insert (rep (target e)) (vertices.image merged) := by
        intro r hr
        obtain ⟨x, hx, rfl⟩ := Finset.mem_image.1 hr
        rw [Finset.mem_insert]
        by_cases heq : rep x = rep (target e)
        · exact Or.inl heq
        · refine Or.inr (Finset.mem_image.2 ⟨x, hx, ?_⟩)
          rw [hmerged, if_neg heq]
      have hcard := (Finset.card_le_card hsub).trans (Finset.card_insert_le _ _)
      rw [List.length_cons]
      omega
    · obtain ⟨hnot, hnodup⟩ := List.nodup_cons.1 hnodup
      have hfewer := hleast hnodup (fun htrail => hopen (htrail.mono (List.subset_cons_self e edges)))
        fun f hf => hends f (List.mem_cons_of_mem e hf)
      have hapart : rep (source e) ≠ rep (target e) := fun heq =>
        hopen (closedTrail_cons hnot ((hrep _ _).1 heq))
      obtain ⟨hs, ht⟩ := hends e List.mem_cons_self
      have hsub : vertices.image merged ⊆ (vertices.image rep).erase (rep (target e)) := by
        intro r hr
        obtain ⟨x, hx, rfl⟩ := Finset.mem_image.1 hr
        rw [hmerged, Finset.mem_erase]
        by_cases heq : rep x = rep (target e)
        · rw [if_pos heq]
          exact ⟨hapart, Finset.mem_image_of_mem rep hs⟩
        · rw [if_neg heq]
          exact ⟨heq, Finset.mem_image_of_mem rep hx⟩
      have hmem : rep (target e) ∈ vertices.image rep := Finset.mem_image_of_mem rep ht
      have hcard := Finset.card_le_card hsub
      rw [Finset.card_erase_of_mem hmem] at hcard
      have hpos := Finset.card_pos.2 ⟨_, hmem⟩
      rw [List.length_cons]
      omega

variable {vertices : List ν}

theorem length_le_of_linked (hnodup : vertices.Nodup)
    (hlinked : ∀ u ∈ vertices, ∀ v ∈ vertices, Linked source target edges u v) :
    vertices.length ≤ edges.length + 1 := by
  obtain ⟨rep, hrep, hmost, -⟩ := exists_classes vertices.toFinset edges
  have hone : (vertices.toFinset.image rep).card ≤ 1 := by
    apply Finset.card_le_one.2
    intro a ha b hb
    obtain ⟨x, hx, rfl⟩ := Finset.mem_image.1 ha
    obtain ⟨y, hy, rfl⟩ := Finset.mem_image.1 hb
    exact (hrep x y).2 (hlinked x (List.mem_toFinset.1 hx) y (List.mem_toFinset.1 hy))
  rw [List.toFinset_card_of_nodup hnodup] at hmost
  omega

theorem length_lt_of_open (hnodup : vertices.Nodup) (hne : vertices ≠ [])
    (hedges : edges.Nodup) (hends : ∀ e ∈ edges, source e ∈ vertices ∧ target e ∈ vertices)
    (hopen : ¬ ClosedTrail source target edges) : edges.length < vertices.length := by
  obtain ⟨rep, hrep, -, hleast⟩ := exists_classes vertices.toFinset edges
  obtain ⟨v, hv⟩ := List.exists_mem_of_ne_nil vertices hne
  have hpos := Finset.card_pos.2 ⟨rep v, Finset.mem_image_of_mem rep (List.mem_toFinset.2 hv)⟩
  have hfewer := hleast hedges hopen fun e he =>
    ⟨List.mem_toFinset.2 (hends e he).1, List.mem_toFinset.2 (hends e he).2⟩
  rw [List.toFinset_card_of_nodup hnodup] at hfewer
  omega

theorem length_of_linked (hnodup : vertices.Nodup) (hne : vertices ≠ [])
    (hedges : edges.Nodup) (hends : ∀ e ∈ edges, source e ∈ vertices ∧ target e ∈ vertices)
    (hlinked : ∀ u ∈ vertices, ∀ v ∈ vertices, Linked source target edges u v) :
    edges.length + 1 = vertices.length ↔ ¬ ClosedTrail source target edges := by
  constructor
  · intro hlength htrail
    obtain ⟨e, he, hspare⟩ := htrail.exists_spare
    have hle := length_le_of_linked hnodup fun u hu v hv => hspare u v (hlinked u hu v hv)
    have hpos := List.length_pos_of_mem he
    rw [List.length_erase_of_mem he] at hle
    omega
  · intro hopen
    have hle := length_le_of_linked hnodup hlinked
    have hlt := length_lt_of_open hnodup hne hedges hends hopen
    omega

end Counting

end XPerl.Framework.Multigraph
