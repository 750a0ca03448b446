import XPerl.Framework.Merge
import XPerl.Mro.Linear

/-! The merge loop is the merge of the sequences by first acceptable heads. -/

namespace XPerl.Mro

open XPerl.Framework

variable {Name : Type} [DecidableEq Name]

def Seq.rest (seq : Seq Name) : List Name := if seq.live then seq.items.drop seq.head else []

def Live (seqs : List (Seq Name)) : Prop :=
  ∀ seq ∈ seqs, seq.live = true → seq.head < seq.items.length

def occ : List (Seq Name) → Name → Nat
  | [], _ => 0
  | seq :: seqs, c => seq.rest.tail.count c + occ seqs c

/-- The table holds the numbers `n`, with an entry for each class that occurs. -/
def Counts (tails : Tails Name) (n : Name → Nat) : Prop :=
  ∀ c, tails.count c = n c ∧ (0 < n c → (tails c).isSome = true)

theorem occ_cons (seq : Seq Name) (seqs : List (Seq Name)) (c : Name) :
    occ (seq :: seqs) c = seq.rest.tail.count c + occ seqs c := rfl

theorem occ_append (seqs seqs' : List (Seq Name)) (c : Name) :
    occ (seqs ++ seqs') c = occ seqs c + occ seqs' c := by
  induction seqs with
  | nil => simp [occ]
  | cons seq seqs ih =>
    rw [List.cons_append, occ_cons, occ_cons, ih]
    omega

variable {c stashhek : Name} {base : Name → Nat}

theorem occ_eq_zero {seqs : List (Seq Name)} :
    occ seqs c = 0 ↔ Acceptable (seqs.map Seq.rest) c := by
  induction seqs with
  | nil => simp [occ, Acceptable]
  | cons seq seqs ih =>
    rw [occ_cons, Nat.add_eq_zero_iff, ih, List.count_eq_zero]
    simp [Acceptable]

variable {seq : Seq Name} {tails : Tails Name} {n : Name → Nat} {r : Round Name} {x : Name}
  {st : Merge Name}

omit [DecidableEq Name] in
theorem rest_cons (hlive : seq.live = true)
    (hhead : seq.head < seq.items.length) :
    seq.rest = seq.items.get ⟨seq.head, hhead⟩ :: seq.items.drop (seq.head + 1) := by
  rw [Seq.rest, if_pos hlive, List.drop_eq_getElem_cons hhead]
  rfl

theorem Tails.count_set (tails : Tails Name) (c d : Name) (n : Int) :
    (tails.set c n).count d = if d = c then n else tails.count d := by
  by_cases h : d = c
  · simp [Tails.count, Tails.set, h]
  · simp [Tails.count, Tails.set, h]

omit [DecidableEq Name] in
theorem Counts.congr {n' : Name → Nat} (h : Counts tails n)
    (heq : ∀ c, n c = n' c) : Counts tails n' := by
  intro c
  rw [← heq c]
  exact h c

theorem Counts.dec {val : Int}
    (h : Counts tails n) (hval : tails c = some val) (hpos : 0 < n c) :
    Counts (tails.set c (val - 1)) (fun d => if d = c then n c - 1 else n d) := by
  intro d
  rw [Tails.count_set]
  by_cases hd : d = c
  · have hcount := (h c).1
    simp only [Tails.count, hval, Option.getD_some] at hcount
    simp only [hd, if_true]
    constructor
    · omega
    · intro _
      simp [Tails.set]
  · simp only [hd, if_false]
    refine ⟨(h d).1, ?_⟩
    intro hlt
    simpa [Tails.set, hd] using (h d).2 hlt

theorem Counts.inc (c : Name) (h : Counts tails n) :
    Counts (tails.inc c) (fun d => (if d = c then 1 else 0) + n d) := by
  intro d
  rw [Tails.inc, Tails.count_set]
  by_cases hd : d = c
  · have hcount := (h c).1
    simp only [Tails.count] at hcount
    simp only [hd, if_true]
    constructor
    · omega
    · intro _
      simp [Tails.set]
  · simp only [hd, if_false]
    refine ⟨by rw [(h d).1]; simp, ?_⟩
    intro hlt
    simpa [Tails.set, hd] using (h d).2 (by omega)

private theorem counts_foldl (items : List Name)
    (h : Counts tails n) : Counts (items.foldl Tails.inc tails) (fun c => items.count c + n c) := by
  induction items generalizing tails n with
  | nil => exact h.congr (by simp)
  | cons a items ih =>
    apply (ih (h.inc a)).congr
    intro c
    by_cases hc : c = a
    · rw [hc, List.count_cons_self]
      simp only [if_true]
      omega
    · rw [List.count_cons_of_ne (Ne.symm hc), if_neg hc]
      omega

private theorem counts_build (seqs : List (List Name))
    (h : Counts tails n) :
    Counts (seqs.foldl (fun tails seq => seq.tail.foldl Tails.inc tails) tails)
      (fun c => occ (seqs.map (⟨·, 0, true⟩)) c + n c) := by
  induction seqs generalizing tails n with
  | nil => exact h.congr (by simp [occ])
  | cons s seqs ih =>
    apply (ih (counts_foldl s.tail h)).congr
    intro c
    rw [List.map_cons, occ_cons, Nat.add_comm (List.count _ _) (occ _ _)]
    exact (Nat.add_assoc _ _ _).symm

theorem counts_buildTails (seqs : List (List Name)) :
    Counts (buildTails seqs) (occ (seqs.map (⟨·, 0, true⟩))) := by
  have hempty : Counts (fun _ : Name => none) (fun _ => 0) := by
    intro c
    exact ⟨rfl, by simp⟩
  apply (counts_build seqs hempty).congr
  intro c
  rw [Nat.add_zero]

/-- What the housekeeping of the winner `x` leaves of the sequences it visits. -/
structure Advanced (x : Name) (base : Name → Nat) (seqs seqs' : List (Seq Name))
    (tails' : Tails Name) : Prop where
  rests : seqs'.map Seq.rest = (seqs.map Seq.rest).map (dropHead x)
  live : Live seqs'
  counts : Counts tails' (fun c => base c + occ seqs' c)

omit [DecidableEq Name] in
private theorem rest_advanced (hlive : seq.live = true)
    (hhead : seq.head < seq.items.length) :
    Seq.rest { seq with head := seq.head + 1 } = seq.rest.tail := by
  rw [rest_cons hlive hhead, Seq.rest, if_pos hlive]
  rfl

theorem advance_spec
    (hlive : seq.live = true) (hhead : seq.head < seq.items.length)
    (hcounts : Counts r.tails (fun c => n c + seq.rest.tail.count c)) :
    ∃ seq' tails', advance seq r = .ok (seq', { r with tails := tails' }) ∧
      seq'.rest = seq.rest.tail ∧ (seq'.live = true → seq'.head < seq'.items.length) ∧
      Counts tails' (fun c => n c + seq'.rest.tail.count c) := by
  by_cases hlast : seq.head + 1 < seq.items.length
  · have hrest := rest_advanced hlive hhead
    have htail : seq.rest.tail = seq.items[seq.head + 1] :: seq.items.drop (seq.head + 2) := by
      rw [rest_cons hlive hhead, List.tail_cons, List.drop_eq_getElem_cons hlast]
    have hpos : 0 < n seq.items[seq.head + 1] + seq.rest.tail.count seq.items[seq.head + 1] := by
      rw [htail, List.count_cons_self]
      omega
    obtain ⟨val, hval⟩ := Option.isSome_iff_exists.1 ((hcounts _).2 hpos)
    refine ⟨{ seq with head := seq.head + 1 },
      r.tails.set seq.items[seq.head + 1] (val - 1), ?_, hrest, fun _ => hlast, ?_⟩
    · simp [advance, Nat.not_le.2 hlast, List.getElem?_eq_getElem hlast, hval]
      rfl
    · apply (hcounts.dec hval hpos).congr
      intro c
      rw [hrest, htail, List.tail_cons]
      by_cases hc : c = seq.items[seq.head + 1]
      · rw [if_pos hc, hc, List.count_cons_self]
        omega
      · rw [if_neg hc, List.count_cons_of_ne (Ne.symm hc)]
  · have htail : seq.rest.tail = [] := by
      rw [rest_cons hlive hhead, List.tail_cons, List.drop_eq_nil_of_le (by omega)]
    refine ⟨{ seq with head := seq.head + 1, live := false }, r.tails, ?_, ?_, by simp, ?_⟩
    · simp [advance, Nat.le_of_not_lt hlast]
      rfl
    · rw [htail]
      simp [Seq.rest]
    · apply hcounts.congr
      intro c
      rw [htail]
      simp [Seq.rest]

theorem visitAll_housekeeping (seqs : List (Seq Name)) (hwinner : r.winner = some x)
    (hlive : Live seqs)
    (hcounts : Counts r.tails (fun c => base c + occ seqs c)) :
    ∃ seqs' tails', visitAll seqs r = .ok (seqs', { r with tails := tails' }) ∧
      Advanced x base seqs seqs' tails' := by
  induction seqs generalizing r base with
  | nil => exact ⟨[], r.tails, rfl, rfl, hlive, hcounts⟩
  | cons seq seqs ih =>
    have hliveRest : Live seqs := fun s hs => hlive s (List.mem_cons_of_mem _ hs)
    -- the sequence itself, with everything after it in the base
    have hvisit : ∃ seq' tails', visit seq r = .ok (seq', { r with tails := tails' }) ∧
        seq'.rest = dropHead x seq.rest ∧ (seq'.live = true → seq'.head < seq'.items.length) ∧
        Counts tails' (fun c => base c + occ seqs c + seq'.rest.tail.count c) := by
      have hbase : Counts r.tails (fun c => base c + occ seqs c + seq.rest.tail.count c) := by
        apply hcounts.congr
        intro c
        rw [occ_cons]
        omega
      cases hl : seq.live with
      | false =>
        refine ⟨seq, r.tails, by simp [visit, hl]; rfl, ?_, by simp [hl], hbase⟩
        simp [Seq.rest, hl, dropHead]
      | true =>
        have hhead := hlive seq List.mem_cons_self hl
        have hget : seq.items[seq.head]? = some seq.items[seq.head] :=
          List.getElem?_eq_getElem hhead
        by_cases hx : seq.items[seq.head] = x
        · obtain ⟨seq', tails', hrun, hrest, hlive', hcounts'⟩ := advance_spec hl hhead hbase
          refine ⟨seq', tails', ?_, ?_, hlive', hcounts'⟩
          · simp [visit, hl, hget, elect, hwinner, hx, hrun]
          · rw [hrest, dropHead_of_head]
            rw [rest_cons hl hhead]
            exact congrArg some hx
        · refine ⟨seq, r.tails, ?_, ?_, fun _ => hhead, hbase⟩
          · simp only [visit, hl, hget, elect, hwinner]
            simp [Ne.symm hx]
            rw [← hwinner]
            rfl
          · rw [dropHead_of_not_head]
            rw [rest_cons hl hhead]
            intro h
            exact hx (Option.some.inj h)
    obtain ⟨seq', tails', hrun, hrest, hlive', hcounts'⟩ := hvisit
    have hmid : Counts ({ r with tails := tails' } : Round Name).tails
        (fun c => (base c + seq'.rest.tail.count c) + occ seqs c) := by
      apply hcounts'.congr
      intro c
      omega
    obtain ⟨seqs', tails'', hruns, hadv⟩ := ih (r := { r with tails := tails' }) hwinner hliveRest hmid
    refine ⟨seq' :: seqs', tails'', ?_, ?_, ?_, ?_⟩
    · rw [visitAll, hrun]
      change visitAll seqs _ >>= _ = _
      rw [hruns]
      rfl
    · simp [hrest, hadv.rests]
    · intro s hs
      rcases List.mem_cons.1 hs with rfl | hs
      · exact hlive'
      · exact hadv.live s hs
    · apply hadv.counts.congr
      intro c
      rw [occ_cons]
      omega

def heads (seqs : List (Seq Name)) : List Name := (seqs.map Seq.rest).filterMap List.head?

omit [DecidableEq Name] in
private theorem heads_cons_dead {seqs : List (Seq Name)}
    (hl : seq.live = false) : heads (seq :: seqs) = heads seqs := by
  have hrest : seq.rest = [] := by simp [Seq.rest, hl]
  rw [heads, List.map_cons, hrest]
  rfl

omit [DecidableEq Name] in
private theorem heads_cons_live {seqs : List (Seq Name)}
    (hl : seq.live = true) (hhead : seq.head < seq.items.length) :
    heads (seq :: seqs) = seq.items[seq.head] :: heads seqs := by
  rw [heads, List.map_cons, rest_cons hl hhead]
  rfl

theorem visitAll_stuck (seqs : List (Seq Name)) (hwinner : r.winner = none)
    (hlive : Live seqs) (hstuck : ∀ c ∈ heads seqs, 0 < r.tails.count c) :
    ∃ cand, visitAll seqs r = .ok (seqs, { r with cand := cand }) ∧
      (cand = none ↔ r.cand = none ∧ heads seqs = []) := by
  induction seqs generalizing r with
  | nil => exact ⟨r.cand, rfl, by simp [heads]⟩
  | cons seq seqs ih =>
    have hliveRest : Live seqs := fun s hs => hlive s (List.mem_cons_of_mem _ hs)
    cases hl : seq.live with
    | false =>
      rw [heads_cons_dead hl] at hstuck ⊢
      obtain ⟨cand, hrun, hcand⟩ := ih hwinner hliveRest hstuck
      refine ⟨cand, ?_, hcand⟩
      simp only [visitAll, visit, hl]
      change visitAll seqs r >>= _ = _
      rw [hrun]
      rfl
    | true =>
      have hhead := hlive seq List.mem_cons_self hl
      rw [heads_cons_live hl hhead] at hstuck ⊢
      have hget : seq.items[seq.head]? = some seq.items[seq.head] := List.getElem?_eq_getElem hhead
      have hpos := hstuck _ List.mem_cons_self
      obtain ⟨cand, hrun, hcand⟩ := ih (r := { r with cand := some seq.items[seq.head] }) hwinner
        hliveRest (fun c hc => hstuck c (List.mem_cons_of_mem _ hc))
      refine ⟨cand, ?_, by simp [hcand]⟩
      have hvisit : visit seq r = .ok (seq, { r with cand := some seq.items[seq.head] }) := by
        simp only [visit, hl, hget, elect, hwinner]
        simp [hpos]
        rfl
      rw [visitAll, hvisit]
      change visitAll seqs _ >>= _ = _
      rw [hrun]
      rfl

theorem visitAll_elected (seqs : List (Seq Name)) (hwinner : r.winner = none) (hlive : Live seqs)
    (hcounts : Counts r.tails (fun c => base c + occ seqs c))
    (hx : (heads seqs).find? (fun c => decide (base c + occ seqs c = 0)) = some x) :
    ∃ seqs' tails', visitAll seqs r = .ok (seqs', ⟨tails', some x, some x, r.retval ++ [x]⟩) ∧
      Advanced x base seqs seqs' tails' := by
  induction seqs generalizing r base with
  | nil => cases hx
  | cons seq seqs ih =>
    have hliveRest : Live seqs := fun s hs => hlive s (List.mem_cons_of_mem _ hs)
    have hzero : base x + occ (seq :: seqs) x = 0 := by simpa using List.find?_some hx
    -- everything after the sequence, with the sequence in the base
    have hbase : Counts r.tails (fun c => (base c + seq.rest.tail.count c) + occ seqs c) := by
      apply hcounts.congr
      intro c
      rw [occ_cons]
      omega
    have hpred : (fun c => decide (base c + occ (seq :: seqs) c = 0)) =
        fun c => decide ((base c + seq.rest.tail.count c) + occ seqs c = 0) := by
      funext c
      rw [occ_cons, Nat.add_assoc]
    have hkeep (cand : Option Name) (hsame : dropHead x seq.rest = seq.rest)
        (hfind : (heads seqs).find?
          (fun c => decide ((base c + seq.rest.tail.count c) + occ seqs c = 0)) = some x)
        (hvisit : visit seq r = .ok (seq, { r with cand := cand })) :
        ∃ seqs' tails', visitAll (seq :: seqs) r =
            .ok (seqs', ⟨tails', some x, some x, r.retval ++ [x]⟩) ∧
          Advanced x base (seq :: seqs) seqs' tails' := by
      obtain ⟨seqs', tails', hrun, hadv⟩ :=
        ih (r := { r with cand := cand }) hwinner hliveRest hbase hfind
      refine ⟨seq :: seqs', tails', ?_, ?_, ?_, ?_⟩
      · rw [visitAll, hvisit]
        change visitAll seqs _ >>= _ = _
        rw [hrun]
        rfl
      · simp [hsame, hadv.rests]
      · intro s hs
        rcases List.mem_cons.1 hs with rfl | hs
        · exact hlive _ List.mem_cons_self
        · exact hadv.live s hs
      · apply hadv.counts.congr
        intro c
        rw [occ_cons]
        omega
    cases hl : seq.live with
    | false =>
      rw [heads_cons_dead hl, hpred] at hx
      apply hkeep r.cand _ hx
      · simp [visit, hl]
        rfl
      · simp [Seq.rest, hl, dropHead]
    | true =>
      have hhead := hlive seq List.mem_cons_self hl
      have hget : seq.items[seq.head]? = some seq.items[seq.head] := List.getElem?_eq_getElem hhead
      have hcount : r.tails.count seq.items[seq.head] =
          ((base seq.items[seq.head] + occ (seq :: seqs) seq.items[seq.head] : Nat) : Int) :=
        (hcounts seq.items[seq.head]).1
      rw [heads_cons_live hl hhead] at hx
      by_cases hacc : base seq.items[seq.head] + occ (seq :: seqs) seq.items[seq.head] = 0
      · have hwon : seq.items[seq.head] = x := by
          rw [List.find?_cons_of_pos (by simpa using hacc)] at hx
          exact Option.some.inj hx
        -- from here on the loop runs as if the class had won before it
        have hrun : visitAll (seq :: seqs) r =
            visitAll (seq :: seqs) ⟨r.tails, some x, some x, r.retval ++ [x]⟩ := by
          have hle : ¬ r.tails.count x > 0 := by
            rw [← hwon]
            omega
          simp only [visitAll, visit, hl, hget, elect, hwinner, hwon, hle, if_false]
          rfl
        rw [hrun]
        exact visitAll_housekeeping (seq :: seqs) (r := ⟨r.tails, some x, some x, r.retval ++ [x]⟩)
          rfl hlive hcounts
      · have hne : seq.items[seq.head] ≠ x := by
          intro heq
          rw [heq] at hacc
          exact hacc hzero
        rw [List.find?_cons_of_neg (by simpa using hacc), hpred] at hx
        apply hkeep (some seq.items[seq.head]) _ hx
        · have hpos : r.tails.count seq.items[seq.head] > 0 := by omega
          simp only [visit, hl, hget, elect, hwinner]
          simp [hpos]
          rfl
        · rw [dropHead_of_not_head]
          rw [rest_cons hl hhead]
          intro h
          exact hne (Option.some.inj h)

def Merge.rests (st : Merge Name) : List (List Name) := st.seqs.map Seq.rest

/-- The state between two rounds: live sequences have a head, the table counts the tails. -/
structure Merge.Good (st : Merge Name) : Prop where
  live : Live st.seqs
  counts : Counts st.tails (occ st.seqs)

theorem Merge.heads_find (st : Merge Name) :
    (heads st.seqs).find? (fun c => decide (0 + occ st.seqs c = 0)) =
      firstAcceptable st.rests := by
  have hpred : (fun c => decide (0 + occ st.seqs c = 0)) =
      fun c => decide (Acceptable st.rests c) := by
    funext c
    rw [Nat.zero_add]
    exact decide_eq_decide.2 occ_eq_zero
  rw [hpred]
  rfl

private theorem counts_round (h : st.Good) :
    Counts st.round.tails (fun c => 0 + occ st.seqs c) :=
  h.counts.congr (by simp)

theorem mergeRound_step (h : st.Good) (stashhek : Name)
    (hx : firstAcceptable st.rests = some x) :
    ∃ st', mergeRound stashhek st = .ok (.inr st') ∧ st'.Good ∧
      st'.rests = st.rests.map (dropHead x) ∧ st'.retval = st.retval ++ [x] := by
  rw [← st.heads_find] at hx
  obtain ⟨seqs', tails', hrun, hadv⟩ := visitAll_elected st.seqs rfl h.live (counts_round h) hx
  refine ⟨⟨seqs', tails', st.retval ++ [x]⟩, ?_, ⟨hadv.live, ?_⟩, hadv.rests, rfl⟩
  · rw [mergeRound, hrun]
    rfl
  · exact hadv.counts.congr (by simp)

omit [DecidableEq Name] in
private theorem heads_eq_nil :
    heads st.seqs = [] ↔ ∀ s ∈ st.rests, s = [] := by
  simp [heads, Merge.rests, List.filterMap_eq_nil_iff]

theorem mergeRound_end (h : st.Good) (stashhek : Name)
    (hnone : firstAcceptable st.rests = none) :
    ((∀ s ∈ st.rests, s = []) → mergeRound stashhek st = .ok (.inl st.retval)) ∧
      (¬ (∀ s ∈ st.rests, s = []) → ∃ cand, mergeRound stashhek st =
        .error (.thrown (.hierarchyInconsistent stashhek st.retval cand))) := by
  have hstuck : ∀ c ∈ heads st.seqs, 0 < st.round.tails.count c := by
    rw [← st.heads_find] at hnone
    intro c hc
    have hpos := List.find?_eq_none.1 hnone c hc
    have hcount : st.round.tails.count c = ((0 + occ st.seqs c : Nat) : Int) :=
      (counts_round h c).1
    simp only [decide_eq_true_eq] at hpos
    omega
  obtain ⟨cand, hrun, hcand⟩ := visitAll_stuck st.seqs (r := st.round) rfl h.live hstuck
  have hround : st.round.cand = none := rfl
  constructor
  · intro hnil
    have hnoCand : cand = none := hcand.2 ⟨hround, heads_eq_nil.2 hnil⟩
    rw [mergeRound, hrun, hnoCand]
    rfl
  · intro hleft
    cases hc : cand with
    | none => exact absurd (heads_eq_nil.1 (hcand.1 hc).2) hleft
    | some c =>
      refine ⟨c, ?_⟩
      rw [mergeRound, hrun, hc]
      rfl

private theorem length_dropHead (x : Name) (s : List Name) :
    (dropHead x s).length ≤ s.length ∧ (s.head? = some x → (dropHead x s).length < s.length) := by
  by_cases h : s.head? = some x
  · rw [dropHead_of_head h]
    cases s with
    | nil => cases h
    | cons a s => simp
  · rw [dropHead_of_not_head h]
    simp [h]

private theorem itemCount_dropHead_le (x : Name) (seqs : List (List Name)) :
    itemCount (seqs.map (dropHead x)) ≤ itemCount seqs := by
  induction seqs with
  | nil => exact Nat.le_refl _
  | cons s seqs ih =>
    have hs := (length_dropHead x s).1
    rw [List.map_cons, itemCount, itemCount]
    omega

theorem itemCount_dropHead {seqs : List (List Name)}
    (h : ∃ s ∈ seqs, s.head? = some x) : itemCount (seqs.map (dropHead x)) < itemCount seqs := by
  induction seqs with
  | nil =>
    obtain ⟨s, hs, -⟩ := h
    cases hs
  | cons s seqs ih =>
    rw [List.map_cons, itemCount, itemCount]
    by_cases hhead : s.head? = some x
    · have hs := (length_dropHead x s).2 hhead
      have hrest := itemCount_dropHead_le x seqs
      omega
    · have hs := (length_dropHead x s).1
      have hrest : itemCount (seqs.map (dropHead x)) < itemCount seqs := by
        apply ih
        obtain ⟨t, ht, hhead'⟩ := h
        rcases List.mem_cons.1 ht with rfl | ht
        · exact absurd hhead' hhead
        · exact ⟨t, ht, hhead'⟩
      omega

theorem mergeLoop_spec (stashhek : Name) (fuel : Nat) (h : st.Good)
    (hfuel : itemCount st.rests < fuel) :
    (∃ m, Merges st.rests m ∧ mergeLoop stashhek fuel st = .ok (st.retval ++ m)) ∨
      (∀ m, ¬ Merges st.rests m) ∧ ∃ merged cand, mergeLoop stashhek fuel st =
        .error (.thrown (.hierarchyInconsistent stashhek merged cand)) := by
  induction fuel generalizing st with
  | zero => omega
  | succ fuel ih =>
    cases hx : firstAcceptable st.rests with
    | some x =>
      obtain ⟨st', hrun, hgood, hrests, hretval⟩ := mergeRound_step h stashhek hx
      have hless := itemCount_dropHead (firstAcceptable_spec hx).2
      rw [mergeLoop, hrun]
      change (∃ m, Merges st.rests m ∧ mergeLoop stashhek fuel st' = _) ∨ _ ∧ ∃ merged cand,
        mergeLoop stashhek fuel st' = _
      rcases ih hgood (by rw [hrests]; omega) with ⟨m, hm, hloop⟩ | ⟨hno, merged, cand, hloop⟩
      · left
        rw [hrests] at hm
        refine ⟨x :: m, Merges.step hx hm, ?_⟩
        rw [hloop, hretval, List.append_assoc]
        rfl
      · right
        refine ⟨?_, merged, cand, hloop⟩
        intro m hm
        obtain ⟨m', -, hm'⟩ := (merges_step_iff hx m).1 hm
        rw [← hrests] at hm'
        exact hno m' hm'
    | none =>
      obtain ⟨hdone, hstuck⟩ := mergeRound_end h stashhek hx
      by_cases hnil : ∀ s ∈ st.rests, s = []
      · left
        refine ⟨[], Merges.done hnil, ?_⟩
        rw [mergeLoop, hdone hnil, List.append_nil]
        rfl
      · right
        obtain ⟨cand, hrun⟩ := hstuck hnil
        refine ⟨?_, st.retval, cand, ?_⟩
        · apply not_merges_of_stuck
          refine ⟨?_, hx⟩
          by_contra hnone
          apply hnil
          intro s hs
          by_contra hne
          exact hnone ⟨s, hs, hne⟩
        · rw [mergeLoop, hrun]
          rfl

theorem startMerge_good (stashhek : Name) {seqs : List (List Name)} (h : ∀ s ∈ seqs, s ≠ []) :
    (startMerge stashhek seqs).Good ∧ (startMerge stashhek seqs).rests = seqs := by
  refine ⟨⟨?_, counts_buildTails seqs⟩, ?_⟩
  · intro seq hseq _
    obtain ⟨s, hs, rfl⟩ := List.mem_map.1 hseq
    exact List.length_pos_iff.2 (h s hs)
  · simp [Merge.rests, startMerge, Seq.rest, Function.comp_def]

theorem fullMerge_spec (stashhek : Name) {seqs : List (List Name)} (h : ∀ s ∈ seqs, s ≠ []) :
    (∃ m, Merges seqs m ∧ fullMerge stashhek seqs = .ok (stashhek :: m)) ∨
      (∀ m, ¬ Merges seqs m) ∧ ∃ merged cand, fullMerge stashhek seqs =
        .error (.thrown (.hierarchyInconsistent stashhek merged cand)) := by
  obtain ⟨hgood, hrests⟩ := startMerge_good stashhek h
  have hloop := mergeLoop_spec stashhek (itemCount seqs + 1) hgood (by rw [hrests]; omega)
  rw [hrests] at hloop
  exact hloop

/-- The states of the merge loop at the start of a round. -/
inductive Reached (stashhek : Name) (seqs : List (List Name)) : Merge Name → Prop where
  | start : Reached stashhek seqs (startMerge stashhek seqs)
  | round {st st' : Merge Name} (hst : Reached stashhek seqs st)
      (hround : mergeRound stashhek st = .ok (.inr st')) : Reached stashhek seqs st'

theorem Reached.good {seqs : List (List Name)} (h : ∀ s ∈ seqs, s ≠ [])
    (hst : Reached stashhek seqs st) : st.Good := by
  induction hst with
  | start => exact (startMerge_good stashhek h).1
  | @round st st' hst hround ih =>
    cases hx : firstAcceptable st.rests with
    | some x =>
      obtain ⟨st'', hrun, hgood, -⟩ := mergeRound_step ih stashhek hx
      rw [hround] at hrun
      cases hrun
      exact hgood
    | none =>
      obtain ⟨hdone, hstuck⟩ := mergeRound_end ih stashhek hx
      by_cases hnil : ∀ s ∈ st.rests, s = []
      · rw [hdone hnil] at hround
        cases hround
      · obtain ⟨cand, hrun⟩ := hstuck hnil
        rw [hrun] at hround
        cases hround

theorem Reached.counts_nonneg {seqs : List (List Name)}
    (h : ∀ s ∈ seqs, s ≠ []) (hst : Reached stashhek seqs st) (k : Nat) :
    ∃ visited r, visitAll (st.seqs.take k) st.round = .ok (visited, r) ∧
      ∀ c, 0 ≤ r.tails.count c := by
  have hgood := hst.good h
  have hlive : Live (st.seqs.take k) := fun s hs => hgood.live s (List.mem_of_mem_take hs)
  have hcounts : Counts st.round.tails
      (fun c => occ (st.seqs.drop k) c + occ (st.seqs.take k) c) := by
    apply hgood.counts.congr
    intro c
    rw [Nat.add_comm, ← occ_append, List.take_append_drop]
  cases hx : (heads (st.seqs.take k)).find?
      (fun c => decide (occ (st.seqs.drop k) c + occ (st.seqs.take k) c = 0)) with
  | some x =>
    obtain ⟨seqs', tails', hrun, hadv⟩ := visitAll_elected (st.seqs.take k) rfl hlive hcounts hx
    refine ⟨seqs', _, hrun, ?_⟩
    intro c
    rw [(hadv.counts c).1]
    exact Int.natCast_nonneg _
  | none =>
    have hstuck : ∀ c ∈ heads (st.seqs.take k), 0 < st.round.tails.count c := by
      intro c hc
      have hpos := List.find?_eq_none.1 hx c hc
      have hcount : st.round.tails.count c =
          ((occ (st.seqs.drop k) c + occ (st.seqs.take k) c : Nat) : Int) := (hcounts c).1
      simp only [decide_eq_true_eq] at hpos
      omega
    obtain ⟨cand, hrun, -⟩ := visitAll_stuck (st.seqs.take k) (r := st.round) rfl hlive hstuck
    refine ⟨_, _, hrun, ?_⟩
    intro c
    rw [(hcounts c).1]
    exact Int.natCast_nonneg _

end XPerl.Mro
