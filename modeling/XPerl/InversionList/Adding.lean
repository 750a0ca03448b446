import XPerl.InversionList.Placing
import XPerl.InversionList.Whole

/-! A range added to a list: appended, prepended, or placed between its ends. -/

namespace XPerl.InversionList

open XPerl.Framework.Switches Invlist

variable {l l' : Invlist} {o : Bool} {xs ys zs as ms bs : List Nat}
  {junk k m n len start stop v x z : Nat} {iS iE : Int}

theorem placeRange_uvMax_fill (hl : Stores l o xs) (has : (as ++ [start]).length + 1 = xs.length)
    (hcut : xs.take as.length = as) (hodd : as.length % 2 = 1)
    (hread : l.read (((as.length + 1 : Nat) : Int) - 1) = .ok start) (junk : Nat) :
    ∃ l', l.placeRange junk xs.length ((as.length + 1 : Nat) - 1) (xs.length - 1) start uvMax =
        .ok l' ∧ Stores l' o as := by
  rw [length_snoc] at has
  obtain ⟨l', hmove, hoffset, hstores⟩ :=
    hl.move_cut (d := as.length) (s := as.length + 2) (by omega) (by omega) (by omega)
  have hmove' : l.move (((as.length + 1 : Nat) : Int) - 1 + 2) (((as.length + 1 : Nat) : Int) - 1)
      ((xs.length : Int) - (((as.length + 1 : Nat) : Int) - 1) - 2) = .ok l' := by
    rw [← hmove]
    congr 1 <;> omega
  rw [hcut, List.drop_of_length_le (by omega), List.append_nil,
    show xs.length - (as.length + 2) + as.length = xs.length - 2 by omega] at hstores
  rw [Invlist.placeRange, if_neg (not_matches (by omega)), extendsTheRangeAbove, if_pos rfl,
    bind_ok rfl, bind_ok hread, if_pos rfl, if_pos ⟨by omega, rfl⟩, bind_ok hmove', hoffset]
  exact ⟨_, rfl, hstores⟩

theorem placeRange_uvMax_touch (hl : Stores l o xs) (h : Cut xs start uvMax (as ++ [start]) ms [])
    (hodd : as.length % 2 = 1) (hlt : as.length < xs.length)
    (hiE : 1 < iE - (((as.length + 1 : Nat) : Int) - 1)) (junk len : Nat) :
    ∃ l', l.placeRange junk len ((as.length + 1 : Nat) - 1) iE start uvMax = .ok l' ∧
      Stores l' o as := by
  have hread := h.read_below hl
  obtain ⟨l₁, hwrite, hstores⟩ := hl.write (i := (as.length : Nat)) (by omega) (by omega) uvMax
  rw [Int.toNat_natCast] at hstores
  have hsize : (xs.set as.length uvMax).length = xs.length := List.length_set
  have hbelow := hstores.read_nat (n := as.length - 1) (by omega)
  have hsub : ((as.length + 1 : Nat) : Int) - 1 = (as.length : Nat) := by omega
  have hbelow' : l₁.read ((as.length : Int) - 1) =
      .ok ((xs.set as.length uvMax).getD (as.length - 1) 0) := by
    rw [← hbelow]
    congr 1
    omega
  obtain ⟨l', hfinish, hstores'⟩ := finishRange_uvMax hstores (n := as.length) (by omega)
    (by omega) junk len iE ((xs.set as.length uvMax).getD (as.length - 1) 0)
  rw [take_set_of_le le_rfl, h.take_below] at hstores'
  have hnot : ¬ iE - (as.length : Int) ≤ 1 := by omega
  rw [Invlist.placeRange, if_neg (not_matches (by omega)), extendsTheRangeAbove, if_pos rfl,
    bind_ok rfl, bind_ok hread, if_pos rfl, hsub, if_neg fun hand => hnot hand.1, if_neg hnot]
  dsimp only
  rw [if_pos rfl, bind_ok hwrite, bind_ok hbelow']
  exact ⟨l', hfinish, hstores'⟩

theorem placeRange_uvMax_apart (hl : Stores l o xs) (h : Cut xs start uvMax (as ++ [z]) ms [])
    (hodd : as.length % 2 = 1) (hlt : as.length + 1 < xs.length) (hne : start ≠ z) (junk len : Nat)
    (iE : Int) :
    ∃ l', l.placeRange junk len ((as.length + 1 : Nat) - 1) iE start uvMax = .ok l' ∧
      Stores l' o (as ++ [z] ++ [start]) := by
  have hread := h.read_below hl
  have hcut := h.take
  rw [length_snoc] at hcut
  obtain ⟨l₁, hwrite, hstores⟩ := hl.write (i := (as.length + 1 : Nat)) (by omega) (by omega) start
  rw [Int.toNat_natCast] at hstores
  have hsize : (xs.set (as.length + 1) start).length = xs.length := List.length_set
  have htake : (xs.set (as.length + 1) start).take (as.length + 1 + 1) = as ++ [z] ++ [start] := by
    rw [List.take_succ_eq_append_getElem (by omega), List.getElem_set_self, take_set_of_le le_rfl,
      hcut]
  obtain ⟨l', hfinish, hstores'⟩ := finishRange_uvMax hstores (n := as.length + 1 + 1) (by omega)
    (by omega) junk len (if iE = ((as.length + 1 : Nat) : Int) - 1 then iE + 1 else iE) start
  rw [htake] at hstores'
  have hsub : ((as.length + 1 : Nat) : Int) - 1 + 1 = ((as.length + 1 + 1 : Nat) : Int) - 1 := by
    omega
  have hwrite' : l.write (((as.length + 1 : Nat) : Int) - 1 + 1) start = .ok l₁ := by
    rw [Int.sub_add_cancel, hwrite]
  rw [Invlist.placeRange, if_neg (not_matches (by omega)), extendsTheRangeAbove, if_pos rfl,
    bind_ok rfl, bind_ok hread, if_neg hne, if_pos rfl]
  dsimp only
  rw [bind_ok hwrite', hsub]
  exact ⟨l', hfinish, hstores'⟩

theorem placeRange_uvMax (hl : Stores l o xs) (h : Cut xs start uvMax as ms [])
    (hodd : xs.length % 2 = 1) (has : as ≠ []) (junk : Nat)
    (hlen : (len = xs.length ∧ iE = xs.length - 1) ∨
      (len = xs.length + 1 ∧ iE = xs.length + 1)) :
    ∃ l', l.placeRange junk len (as.length - 1) iE start uvMax = .ok l' ∧
      Stores l' o (before as start) := by
  have hlength := h.length
  rw [List.length_nil, Nat.add_zero] at hlength
  rcases Nat.mod_two_eq_zero_or_one as.length with heven | hinside
  · obtain ⟨as', z, heq⟩ := (List.eq_nil_or_concat as).resolve_left has
    rw [List.concat_eq_append] at heq
    subst heq
    rw [length_snoc] at heven hlength ⊢
    by_cases hz : start = z
    · subst hz
      rw [before, length_snoc, if_neg (by omega), List.getLast?_concat, if_pos rfl,
        List.dropLast_concat]
      by_cases hfill : len = xs.length ∧ ms.length = 1
      · rw [hfill.1, hlen.elim And.right fun h' => by omega]
        exact placeRange_uvMax_fill hl (by rw [length_snoc]; omega) h.take_below (by omega)
          (h.read_below hl) junk
      · have hiE : 1 < iE - (((as'.length + 1 : Nat) : Int) - 1) := by
          rcases hlen with h' | h'
          · have hms : ms.length ≠ 1 := fun hms => hfill ⟨h'.1, hms⟩
            omega
          · omega
        exact placeRange_uvMax_touch hl h (by omega) (by omega) hiE junk len
    · rw [before, length_snoc, if_neg (by omega), List.getLast?_concat, if_neg fun heq =>
        hz (Option.some.inj heq).symm]
      exact placeRange_uvMax_apart hl h (by omega) (by omega) hz junk len iE
  · obtain ⟨l', hfinish, hstores⟩ := finishRange_uvMax hl (n := as.length) (by omega) (by omega)
      junk len iE start
    rw [h.take] at hstores
    rw [Invlist.placeRange, if_pos ((matches_iff _).2 (by omega)), before, if_pos hinside]
    exact ⟨l', hfinish, hstores⟩

theorem cut_of_located (hstart : Located xs start iS) (hend : Located xs stop iE)
    (hle : start ≤ stop) :
    ∃ as ms bs, Cut xs start stop as ms bs ∧ (as.length : Int) - 1 = iS ∧
      ((as.length + ms.length : Nat) : Int) - 1 = iE := by
  obtain ⟨as, rest, hxs, hiS, hbelow, habove⟩ := hstart
  obtain ⟨cs, bs, hxs', hiE, hinside, hbehind⟩ := hend
  obtain ⟨ms, hcs, hrest⟩ : ∃ ms, cs = as ++ ms ∧ rest = ms ++ bs := by
    rcases List.append_eq_append_iff.1 (hxs.symm.trans hxs') with ⟨ms, hcs⟩ | ⟨cs', has, hbs⟩
    · exact ⟨ms, hcs⟩
    · cases cs' with
      | nil => exact ⟨[], by rw [has, List.append_nil, List.append_nil], hbs.symm⟩
      | cons c cs' =>
        have hlow := hbelow c (has ▸ List.mem_append_right _ List.mem_cons_self)
        have hhigh := hbehind c (hbs ▸ List.mem_append_left _ List.mem_cons_self)
        omega
  subst hcs hrest
  rw [List.length_append] at hiE
  refine ⟨as, ms, bs, ⟨hxs, hbelow, fun x hx => habove x (List.mem_append_left _ hx),
    fun x hx => hinside x (List.mem_append_right _ hx), hbehind⟩, by omega, by omega⟩

def Covers (xs : List Nat) (stop : Nat) : Prop := xs.length % 2 = 0 → ∃ x ∈ xs, stop < x

theorem Cut.reached (h : Cut xs start stop as ms bs) (hle : start ≤ stop)
    (hcovers : Covers xs stop) :
    Reached as ms bs := by
  intro heven hnil
  have hlength := h.length
  rw [hnil, List.length_nil, Nat.add_zero] at hlength
  obtain ⟨x, hx, hlt⟩ := hcovers (by omega)
  rw [h.eq, hnil, List.append_nil] at hx
  rcases List.mem_append.1 hx with hx | hx
  · exact absurd ((h.below x hx).trans hle) (Nat.not_le.2 hlt)
  · exact absurd (h.inside x hx) (Nat.not_le.2 hlt)

theorem Covers.odd (hcovers : Covers xs uvMax) (hxs : Canonical xs) : xs.length % 2 = 1 := by
  by_contra hodd
  obtain ⟨x, hx, hlt⟩ := hcovers (by omega)
  exact absurd (hxs.bound x hx) (Nat.not_le.2 hlt)

/-- What is known of the end of the range: nothing yet, or its index, or that it is infinity and
was just appended. -/
inductive Known (xs : List Nat) (stop : Nat) : Nat → Int → Prop where
  | nothing : Known xs stop xs.length 0
  | index {iE : Int} (hpos : 0 ≤ iE) (hend : Located xs stop iE) (hstop : stop < uvMax) :
      Known xs stop xs.length iE
  | infinity (hstop : stop = uvMax) : Known xs stop (xs.length + 1) (xs.length + 1)

theorem placeRange_found (hl : Stores l o xs) (hxs : Canonical xs) (h : Cut xs start stop as ms bs)
    (hle : start ≤ stop) (hstop : stop ≤ uvMax) (hcovers : Covers xs stop) (has : as ≠ [])
    (junk : Nat) :
    ∃ l', l.placeRange junk xs.length (as.length - 1) ((as.length + ms.length : Nat) - 1) start
        stop = .ok l' ∧
      Stores l' o (before as start ++ after (as.length + ms.length) bs stop) := by
  rcases Nat.eq_or_lt_of_le hstop with heq | hlt
  · subst heq
    have hnil := h.nil_of_uvMax hxs
    subst hnil
    have hlength := h.length
    rw [List.length_nil, Nat.add_zero] at hlength
    rw [after_uvMax, List.append_nil, ← hlength]
    exact placeRange_uvMax hl h (hcovers.odd hxs) has junk (.inl ⟨rfl, rfl⟩)
  · exact placeRange_spec hl hxs h (h.reached hle hcovers) hlt has junk

theorem findEnd_spec (hl : Stores l o xs) (hxs : Canonical xs) (hstart : Located xs start iS)
    (hiS : 0 ≤ iS) (hle : start ≤ stop) (hstop : stop ≤ uvMax) (hcovers : Covers xs stop)
    (hknown : Known xs stop len iE) (junk : Nat) :
    ∃ l' as ms bs, l.findEnd junk len iS iE start stop = .ok l' ∧ Cut xs start stop as ms bs ∧
      as ≠ [] ∧ Stores l' o (before as start ++ after (as.length + ms.length) bs stop) := by
  have hne : ∀ {as : List Nat}, (as.length : Int) - 1 = iS → as ≠ [] := fun has hnil => by
    rw [hnil, List.length_nil] at has
    omega
  have hsearch : ∃ l' as ms bs, (if start = stop then l.placeRange junk xs.length iS iS start stop
      else l.search stop >>= fun r => r.2.placeRange junk xs.length iS r.1 start stop) = .ok l' ∧
      Cut xs start stop as ms bs ∧ as ≠ [] ∧ Stores l' o (before as start ++ after (as.length + ms.length) bs stop) := by
    by_cases heq : start = stop
    · subst heq
      obtain ⟨as, ms, bs, hcut, has, hms⟩ := cut_of_located hstart hstart le_rfl
      obtain ⟨l', hplace, hstores⟩ := placeRange_found hl hxs hcut le_rfl hstop hcovers (hne has) junk
      rw [has, hms] at hplace
      exact ⟨l', as, ms, bs, (if_pos rfl).trans hplace, hcut, hne has, hstores⟩
    · obtain ⟨r, hr, hsearched⟩ := hl.search hxs.strict stop
      obtain ⟨as, ms, bs, hcut, has, hms⟩ := cut_of_located hstart hsearched.located hle
      obtain ⟨l', hplace, hstores⟩ :=
        placeRange_found hsearched.stores hxs hcut hle hstop hcovers (hne has) junk
      rw [has, hms] at hplace
      refine ⟨l', as, ms, bs, ?_, hcut, hne has, hstores⟩
      rw [if_neg heq, bind_ok hr]
      exact hplace
  rw [Invlist.findEnd]
  cases hknown with
  | nothing =>
    rw [if_pos rfl]
    exact hsearch
  | index hpos hend hlt =>
    by_cases hzero : iE = 0
    · rw [if_pos hzero]
      exact hsearch
    · obtain ⟨as, ms, bs, hcut, has, hms⟩ := cut_of_located hstart hend hle
      obtain ⟨l', hplace, hstores⟩ := placeRange_found hl hxs hcut hle hstop hcovers (hne has) junk
      rw [has, hms] at hplace
      exact ⟨l', as, ms, bs, (if_neg hzero).trans hplace, hcut, hne has, hstores⟩
  | infinity heq =>
    subst heq
    obtain ⟨as, ms, bs, hcut, has, -⟩ := cut_of_located hstart (located_of (n := xs.length)
      hxs.strict le_rfl (fun hpos => hxs.bound _ (getD_mem (by omega))) fun hlt => by omega) hle
    have hnil := hcut.nil_of_uvMax hxs
    subst hnil
    obtain ⟨l', hplace, hstores⟩ :=
      placeRange_uvMax hl hcut (hcovers.odd hxs) (hne has) junk (.inr ⟨rfl, rfl⟩)
    rw [has] at hplace
    refine ⟨l', as, ms, [], (if_neg (by omega)).trans hplace, hcut, hne has, ?_⟩
    rw [after_uvMax, List.append_nil]
    exact hstores

def Added (l' : Invlist) (xs : List Nat) (start stop : Nat) : Prop :=
  ∃ zs, Holds l' zs ∧
    ∀ v, v ≤ uvMax → state false zs v = (state false xs v || decide (start ≤ v ∧ v ≤ stop))

theorem Cut.added (h : Cut xs start stop as ms bs) (hxs : Canonical xs) (hle : start ≤ stop)
    (hstop : stop ≤ uvMax) (hwell : WellOffset o (before as start))
    (hl : Stores l' o (before as start ++ after (as.length + ms.length) bs stop)) :
    Added l' xs start stop := by
  refine ⟨_, .inr ⟨o, hl, h.canonical hxs hle hstop, ?_⟩, fun v hv => h.state hxs hle hstop hv⟩
  rw [WellOffset, List.head?_append_of_ne_nil]
  · exact hwell
  · intro hnil
    have hodd := before_odd as start
    rw [hnil] at hodd
    exact absurd hodd (by decide)

theorem Cut.wellOffset (h : Cut xs start stop as ms bs) (has : as ≠ []) (hwell : WellOffset o xs) :
    WellOffset o (before as start) := by
  rw [WellOffset, h.eq, List.head?_append_of_ne_nil _ has] at hwell
  rw [WellOffset, head?_before has]
  exact hwell

theorem before_nil (start : Nat) : before [] start = [start] := by
  rw [before, if_neg (by decide), if_neg (by simp)]
  rfl

theorem after_all (heven : m % 2 = 0) : after m [] stop = closing stop := by
  rw [after, if_neg (by omega), if_neg (by simp), List.append_nil]

theorem Empty.added (h : Empty l) (hle : start ≤ stop) (hstop : stop ≤ uvMax) (junk : Nat) :
    ∃ l', l.appendRange junk start stop = .ok l' ∧ Added l' [] start stop := by
  obtain ⟨l', happend, hstores, -⟩ := h.appendRange junk start stop
  have hcut : Cut [] start stop [] [] [] := by constructor <;> simp
  have hafter : after 0 [] stop = closing stop := after_all rfl
  refine ⟨l', happend, hcut.added canonical_nil hle hstop (o := decide (start ≠ 0)) ?_ ?_⟩
  · rw [before_nil, WellOffset, decide_eq_false_iff_not, not_not, List.head?_cons,
      Option.some.injEq]
  · change Stores l' _ (before [] start ++ after 0 [] stop)
    rw [before_nil, hafter]
    exact hstores

theorem union_range (h : Holds l xs) (hstop : stop ≤ uvMax) (junk : Nat) :
    ∃ l' range, Invlist.ofRange junk 0 stop = .ok range ∧
      Invlist.union junk (some l) range false (some ⟨l, true⟩) = .ok l' ∧ Added l' xs 0 stop := by
  obtain ⟨range, hrange, ys, hys, hstate⟩ :=
    Empty.added (.inl (new_blank junk 2).1) (Nat.zero_le stop) hstop junk
  have hfits : ∀ out, some (Output.mk l true) = some out → out.Fits (some l) := by
    intro out hout
    rw [← Option.some.inj hout]
    exact ⟨⟨xs, h⟩, fun _ => rfl⟩
  obtain ⟨u, zs, hu, hholds, hunion⟩ := union_spec (a := some l) h hys hfits junk false
  refine ⟨u, range, hrange, hu, zs, hholds, fun v hv => ?_⟩
  rw [hunion, hstate v hv]
  simp

theorem extended_first (hlt : start < x) (hle : x ≤ stop + 1) (xs : List Nat) (v : Nat) :
    (state false (start :: xs) v || decide (start ≤ v ∧ v ≤ stop)) =
      (state false (x :: xs) v || decide (start ≤ v ∧ v ≤ stop)) := by
  rcases Nat.lt_or_ge v start with hlow | hlow
  · rw [state_of_lt hlow, state_of_lt (hlow.trans hlt)]
  rcases Nat.lt_or_ge stop v with hhigh | hhigh
  · rw [state_of_le hlow, state_of_le (show x ≤ v by omega)]
  · rw [decide_eq_true ⟨hlow, hhigh⟩, Bool.or_true, Bool.or_true]

theorem Known.extended (h : Known (x :: ys) stop len iE) (hle : start ≤ stop) :
    Known (start :: ys) stop len iE := by
  cases h with
  | nothing => exact .nothing
  | index hpos hend hstop =>
    refine .index hpos ?_ hstop
    obtain ⟨as, bs, hxs, hlength, hbelow, habove⟩ := hend
    cases as with
    | nil =>
      rw [List.length_nil] at hlength
      omega
    | cons a as =>
      refine ⟨start :: as, bs, ?_, hlength, ?_, habove⟩
      · rw [(List.cons.inj hxs).2]
        rfl
      · exact List.forall_mem_cons.2 ⟨hle, (List.forall_mem_cons.1 hbelow).2⟩
  | infinity heq => exact .infinity heq

theorem Covers.extended (h : Covers (x :: ys) stop) (hxs : Canonical (x :: ys)) :
    Covers (start :: ys) stop := by
  intro heven
  obtain ⟨z, hz, hlt⟩ := h heven
  have hfirst := (List.pairwise_cons.1 hxs.strict).1
  rcases List.mem_cons.1 hz with hzx | hmem
  · cases ys with
    | nil => exact absurd heven (by simp)
    | cons y ys =>
      have hy := hfirst y List.mem_cons_self
      exact ⟨y, List.mem_cons_of_mem _ List.mem_cons_self, by omega⟩
  · exact ⟨z, List.mem_cons_of_mem _ hmem, hlt⟩

theorem Canonical.extended (h : Canonical (x :: ys)) (hlt : start < x) :
    Canonical (start :: ys) := by
  obtain ⟨hfirst, hrest⟩ := List.pairwise_cons.1 h.strict
  obtain ⟨hx, hbound⟩ := List.forall_mem_cons.1 h.bound
  exact ⟨List.pairwise_cons.2 ⟨fun y hy => hlt.trans (hfirst y hy), hrest⟩,
    List.forall_mem_cons.2 ⟨hlt.le.trans hx, hbound⟩⟩

theorem Known.len_eq (h : Known xs stop len iE) (hstop : stop < uvMax) : len = xs.length := by
  cases h with
  | nothing => rfl
  | index => rfl
  | infinity heq => exact absurd heq hstop.ne

theorem splice_first (hl : Stores l o (x :: ys)) (hxs : Canonical (x :: ys)) (hle : start ≤ stop)
    (hlt : stop + 1 < x) (hwell : WellOffset o [start]) (junk : Nat) :
    ∃ l', l.spliceInNewRange junk (x :: ys).length (-1) start stop = .ok l' ∧
      Added l' (x :: ys) start stop := by
  have hx := hxs.bound x List.mem_cons_self
  have hcut : Cut (x :: ys) start stop [] [] (x :: ys) := by
    refine ⟨rfl, by simp, by simp, by simp, List.forall_mem_cons.2 ⟨by omega, fun y hy => ?_⟩⟩
    have hy := (List.pairwise_cons.1 hxs.strict).1 y hy
    omega
  have hafter : after 0 (x :: ys) stop = uvSucc stop :: x :: ys := by
    rw [after, if_neg (by decide), if_neg, closing, if_neg (by omega)]
    · rfl
    · rw [List.head?_cons, uvSucc_eq (by omega), Option.some.injEq]
      omega
  obtain ⟨l', hsplice, hstores⟩ := splice_spec hl (Nat.zero_le _) junk start stop
  refine ⟨l', hsplice, hcut.added hxs hle (by omega) (o := o) ?_ ?_⟩
  · rw [before_nil]
    exact hwell
  · change Stores l' _ (before [] start ++ after 0 (x :: ys) stop)
    rw [before_nil, hafter]
    exact hstores

theorem addBelow_spec (hl : Stores l o xs) (hxs : Canonical xs) (hwell : WellOffset o xs)
    (hne : xs ≠ []) (hle : start ≤ stop) (hstop : stop ≤ uvMax) (hcovers : Covers xs stop)
    (hknown : Known xs stop len iE) (junk : Nat) :
    ∃ l', l.addBelow junk len iE start stop = .ok l' ∧ Added l' xs start stop := by
  obtain ⟨x, ys, hcons⟩ := List.exists_cons_of_ne_nil hne
  subst hcons
  have hread : l.read 0 = .ok x := by
    rw [hl.read le_rfl (by rw [List.length_cons]; omega)]
    rfl
  have hx := hxs.bound x List.mem_cons_self
  rw [Invlist.addBelow, bind_ok hread]
  by_cases hbelow : start < x
  · rw [if_pos hbelow]
    by_cases hzero : start = 0
    · subst hzero
      obtain ⟨l', range, hrange, hunion, hadded⟩ := union_range (.inr ⟨o, hl, hxs, hwell⟩) hstop junk
      rw [if_pos rfl, bind_ok hrange]
      exact ⟨l', hunion, hadded⟩
    have hoffset : o = true := by
      cases o with
      | true => rfl
      | false =>
        have hhead := hwell.1 rfl
        rw [List.head?_cons, Option.some.injEq] at hhead
        omega
    subst hoffset
    have hwell' : ∀ zs, WellOffset true (start :: zs) := fun zs =>
      iff_of_false (by decide) fun hhead => hzero (Option.some.inj hhead)
    rw [if_neg hzero, uvPred_eq (by omega) hx]
    by_cases happart : stop < x - 1
    · rw [if_pos happart, hknown.len_eq (by omega)]
      exact splice_first hl hxs hle (by omega) (hwell' []) junk
    · have hcanonical := hxs.extended hbelow
      have hhere : Located (start :: ys) start 0 := by
        refine ⟨[start], ys, rfl, rfl, fun a ha => (List.mem_singleton.1 ha).le, fun y hy => ?_⟩
        exact (List.pairwise_cons.1 hcanonical.strict).1 y hy
      obtain ⟨l₁, hwrite, hstores₁⟩ := hl.write le_rfl (by rw [List.length_cons]; omega) start
      obtain ⟨l', as, ms, bs, hfind, hcut, has, hstores⟩ :=
        findEnd_spec hstores₁ hcanonical hhere le_rfl hle hstop (hcovers.extended hxs)
          (hknown.extended hle) junk
      obtain ⟨zs, hzs, hstate⟩ :=
        hcut.added hcanonical hle hstop (hcut.wellOffset has (hwell' ys)) hstores
      rw [if_neg happart, bind_ok hwrite]
      exact ⟨l', hfind, zs, hzs, fun v hv =>
        (hstate v hv).trans (extended_first hbelow (by omega) ys v)⟩
  · rw [if_neg hbelow]
    obtain ⟨r, hr, hsearched⟩ := hl.search hxs.strict start
    have hiS : 0 ≤ r.1 := by
      obtain ⟨as, bs, heq, hlength, -, habove⟩ := hsearched.located
      cases as with
      | nil =>
        rw [List.nil_append] at heq
        exact absurd (habove x (heq ▸ List.mem_cons_self)) hbelow
      | cons a as =>
        rw [List.length_cons] at hlength
        omega
    obtain ⟨l', as, ms, bs, hfind, hcut, has, hstores⟩ :=
      findEnd_spec hsearched.stores hxs hsearched.located hiS hle hstop hcovers hknown junk
    rw [bind_ok hr]
    exact ⟨l', hfind, hcut.added hxs hle hstop (hcut.wellOffset has hwell) hstores⟩

theorem Cut.all (hxs : ∀ x ∈ xs, x ≤ start) : Cut xs start stop xs [] [] := by
  refine ⟨?_, hxs, by simp, by simp, by simp⟩
  rw [List.append_nil, List.append_nil]

theorem highest_even (hl : Stores l o (ys ++ [x])) (hodd : ys.length % 2 = 1) :
    l.highest = .ok (uvPred x) := by
  have hlen : l.len = ys.length + 1 := hl.len.trans (length_snoc ys x)
  have hread : l.read (((ys.length + 1 : Nat) : Int) - 1) = .ok x := by
    rw [Int.natCast_add, Int.natCast_one, Int.add_sub_cancel, hl.read_nat (by rw [length_snoc]; omega),
      getD_last]
  rw [Invlist.highest, hlen, if_neg (Nat.succ_ne_zero _), if_neg (not_matches (by omega)),
    bind_ok hread]

theorem highest_odd (hl : Stores l o xs) (hodd : xs.length % 2 = 1) : l.highest = .ok uvMax := by
  rw [Invlist.highest, hl.len, if_neg (by omega), if_pos ((matches_iff _).2 (by omega))]

theorem append_end (hl : Stores l o (ys ++ [x])) (hodd : ys.length % 2 = 1) (hle : x ≤ start)
    (junk stop : Nat) :
    ∃ l', l.appendRange junk start stop = .ok l' ∧
      Stores l' o (before (ys ++ [x]) start ++ after (ys ++ [x]).length [] stop) := by
  rw [after_all (by rw [length_snoc]; omega), before, length_snoc, if_neg (by omega),
    List.getLast?_concat, List.dropLast_concat]
  rcases Nat.eq_or_lt_of_le hle with heq | hlt
  · rw [if_pos (congrArg some heq), ← heq]
    exact appendRange_touch hl hodd junk stop
  · rw [if_neg fun heq => hlt.ne (Option.some.inj heq), List.append_assoc _ [start]]
    exact appendRange_above hl hodd hlt junk stop

theorem addRange_across (hl : Stores l o (ys ++ [x])) (hxs : Canonical (ys ++ [x]))
    (hwell : WellOffset o (ys ++ [x])) (hodd : ys.length % 2 = 1) (hlt : start < x) (hle : x ≤ stop)
    (hstop : stop ≤ uvMax) (junk : Nat) :
    ∃ l₁ l', l.appendRange junk x stop = .ok l₁ ∧
      l₁.addBelow junk (ys.length + 1) (if stop = uvMax then (ys.length + 1 : Nat)
        else (ys.length + 1 : Nat) - 2) start stop = .ok l' ∧ Added l' (ys ++ [x]) start stop := by
  have hbelow : ∀ y ∈ ys, y < x := fun y hy =>
    (List.pairwise_append.1 hxs.strict).2.2 y hy x (List.mem_singleton_self x)
  have hcut : Cut (ys ++ [x]) x stop (ys ++ [x]) [] [] := Cut.all fun y hy => by
    rcases List.mem_append.1 hy with hy | hy
    · exact (hbelow y hy).le
    · exact (List.mem_singleton.1 hy).le
  obtain ⟨l₁, happend, hstores⟩ := append_end hl hodd le_rfl junk stop
  have hwell₁ := hcut.wellOffset (List.append_ne_nil_of_right_ne_nil _ (by simp)) hwell
  have hcanonical := hcut.canonical hxs hle hstop
  have hstate := fun v hv => hcut.state (v := v) hxs hle hstop hv
  have hafter : after (ys ++ [x]).length [] stop = closing stop :=
    after_all (by rw [length_snoc]; omega)
  have hbefore : before (ys ++ [x]) x = ys := by
    rw [before, length_snoc, if_neg (by omega), List.getLast?_concat, if_pos rfl,
      List.dropLast_concat]
  rw [hafter, hbefore] at hstores
  rw [List.length_nil, Nat.add_zero, hafter, hbefore] at hcanonical hstate
  rw [hbefore] at hwell₁
  have hne : ys ++ closing stop ≠ [] := by
    intro hnil
    rw [(List.append_eq_nil_iff.1 hnil).1] at hodd
    exact absurd hodd (by decide)
  have hwell' : WellOffset o (ys ++ closing stop) := by
    rw [WellOffset, List.head?_append_of_ne_nil]
    · exact hwell₁
    · intro hnil
      rw [hnil] at hodd
      exact absurd hodd (by decide)
  have hcovers : Covers (ys ++ closing stop) stop := by
    intro heven
    by_cases huv : stop = uvMax
    · rw [closing, if_pos huv, List.append_nil] at heven
      omega
    · rw [closing, if_neg huv, uvSucc_eq (by omega)]
      exact ⟨stop + 1, List.mem_append_right _ (List.mem_singleton_self _), Nat.lt_succ_self stop⟩
  have hknown : Known (ys ++ closing stop) stop (ys.length + 1) (if stop = uvMax then
      ((ys.length + 1 : Nat) : Int) else ((ys.length + 1 : Nat) : Int) - 2) := by
    by_cases huv : stop = uvMax
    · rw [if_pos huv, closing, if_pos huv, List.append_nil]
      exact .infinity huv
    · have hlt' : stop < uvMax := by omega
      rw [if_neg huv, closing_of_lt hlt', ← length_snoc ys (stop + 1)]
      refine .index (by rw [length_snoc]; omega) ?_ hlt'
      refine ⟨ys, [stop + 1], rfl, by rw [length_snoc]; omega, fun y hy => ?_, fun b hb => ?_⟩
      · exact (hbelow y hy).le.trans hle
      · rw [List.mem_singleton.1 hb]
        exact Nat.lt_succ_self stop
  obtain ⟨l', hadd, zs, hzs, hadded⟩ :=
    addBelow_spec hstores hcanonical hwell' hne (hlt.le.trans hle) hstop hcovers hknown junk
  refine ⟨l₁, l', happend, hadd, zs, hzs, fun v hv => ?_⟩
  rw [hadded v hv, hstate v hv, Bool.or_assoc]
  congr 1
  rw [← Bool.decide_or]
  exact decide_eq_decide.2 (by omega)

theorem addRange_some (hl : Stores l o xs) (hxs : Canonical xs) (hwell : WellOffset o xs)
    (hne : xs ≠ []) (hle : start ≤ stop) (hstop : stop ≤ uvMax) (junk : Nat) :
    ∃ l', addRange junk (some l) start stop = .ok l' ∧ Added l' xs start stop := by
  have hlen : l.len ≠ 0 := by
    rw [hl.len]
    exact List.length_eq_zero_iff.not.2 hne
  unfold addRange
  dsimp only
  rw [if_neg hlen]
  rcases Nat.mod_two_eq_zero_or_one xs.length with heven | hodd
  · obtain ⟨ys, x, hsnoc⟩ := (List.eq_nil_or_concat xs).resolve_left hne
    rw [List.concat_eq_append] at hsnoc
    subst hsnoc
    have hys : ys.length % 2 = 1 := by
      rw [length_snoc] at heven
      omega
    have hx := hxs.bound x (List.mem_append_right _ (List.mem_singleton_self x))
    have hbelow : ∀ y ∈ ys, y < x := fun y hy =>
      (List.pairwise_append.1 hxs.strict).2.2 y hy x (List.mem_singleton_self x)
    have hpos : 0 < x := by
      have hmem : ys.getD 0 0 ∈ ys := getD_mem (by omega)
      exact (Nat.zero_le _).trans_lt (hbelow _ hmem)
    rw [bind_ok (highest_even hl hys), uvPred_eq hpos hx]
    by_cases habove : x - 1 < stop
    · rw [if_pos habove]
      by_cases hapart : x - 1 < start
      · have hcut : Cut (ys ++ [x]) start stop (ys ++ [x]) [] [] := Cut.all fun y hy => by
          rcases List.mem_append.1 hy with hy | hy
          · have hlt := hbelow y hy
            omega
          · rw [List.mem_singleton.1 hy]
            omega
        obtain ⟨l', happend, hstores⟩ := append_end hl hys (show x ≤ start by omega) junk stop
        have hwell' := hcut.wellOffset hne hwell
        rw [if_pos hapart]
        exact ⟨l', happend, hcut.added hxs hle hstop hwell' hstores⟩
      · obtain ⟨l₁, l', happend, hadd, hadded⟩ :=
          addRange_across hl hxs hwell hys (show start < x by omega) (by omega) hstop junk
        rw [if_neg hapart, uvSucc_eq (by omega), Nat.sub_add_cancel hpos, bind_ok happend, hl.len,
          length_snoc]
        exact ⟨l', hadd, hadded⟩
    · have hcovers : Covers (ys ++ [x]) stop := fun _ =>
        ⟨x, List.mem_append_right _ (List.mem_singleton_self x), by omega⟩
      rw [if_neg habove, hl.len]
      exact addBelow_spec hl hxs hwell hne hle hstop hcovers .nothing junk
  · have hcovers : Covers xs stop := fun heven => by omega
    rw [bind_ok (highest_odd hl hodd), if_neg (Nat.not_lt.2 hstop), hl.len]
    exact addBelow_spec hl hxs hwell hne hle hstop hcovers .nothing junk

variable {a : Option Invlist}

theorem addRange_holds (ha : HoldsOption a xs) (hle : start ≤ stop)
    (hstop : stop ≤ uvMax) (junk : Nat) :
    ∃ l', addRange junk a start stop = .ok l' ∧ Added l' xs start stop := by
  cases a with
  | none =>
    rw [show xs = [] from ha]
    exact Empty.added (.inl (new_blank junk 2).1) hle hstop junk
  | some l =>
    rcases Classical.em (xs = []) with hnil | hne
    · subst hnil
      obtain ⟨l', happend, hadded⟩ := Empty.added (Holds.empty ha) hle hstop junk
      have hlen := (Holds.empty ha).len
      unfold addRange
      exact ⟨l', (if_pos hlen).trans happend, hadded⟩
    · obtain ⟨o, hstores, hxs, hwell⟩ := Holds.stores ha hne
      exact addRange_some hstores hxs hwell hne hle hstop junk

theorem eq_of_sets (hxs : Canonical xs) (hys : Canonical ys)
    (h : ∀ v, v ≤ uvMax → state false xs v = state false ys v) : xs = ys :=
  eq_of_state hxs.strict hys.strict false fun v hv => h v (hv.elim (hxs.bound v) (hys.bound v))

/-- The set of a list, or of none. -/
def MemOption (a : Option Invlist) (cp : Nat) : Prop := ∃ l, a = some l ∧ l.Mem cp

theorem HoldsOption.of_valid (h : ∀ l, a = some l → Valid l) :
    ∃ xs, HoldsOption a xs := by
  cases a with
  | none => exact ⟨[], rfl⟩
  | some l => exact h l rfl

theorem Holds.mem (h : Holds l xs) : l.Mem v ↔ state false xs v = true := by
  rw [Invlist.Mem, h.array]

theorem HoldsOption.mem (h : HoldsOption a xs) :
    MemOption a v ↔ state false xs v = true := by
  cases a with
  | none =>
    rw [show xs = [] from h]
    exact iff_of_false (fun hmem => by obtain ⟨l, hl, -⟩ := hmem; cases hl) Bool.false_ne_true
  | some a =>
    refine Iff.trans ⟨fun hmem => ?_, fun hmem => ⟨a, rfl, hmem⟩⟩ (Holds.mem h)
    obtain ⟨l, hl, hmem⟩ := hmem
    rw [Option.some.inj hl]
    exact hmem

/-- A range added in place makes the array that the union makes, and no index lies outside the list
and the room made for it. -/
theorem add_range_agrees_with_union (a : Option Invlist) (ha : ∀ l, a = some l → Valid l)
    (start stop : Nat) (hle : start ≤ stop) (hstop : stop ≤ uvMax) (junk : Nat) :
    ∃ l range u, addRange junk a start stop = .ok l ∧ ofRange junk start stop = .ok range ∧
      union junk a range false none = .ok u ∧ Valid l ∧ Canonical l.array ∧ l.array = u.array ∧
      ∀ cp, cp ≤ uvMax → (l.Mem cp ↔ MemOption a cp ∨ (start ≤ cp ∧ cp ≤ stop)) := by
  obtain ⟨xs, hxs⟩ := HoldsOption.of_valid ha
  obtain ⟨l, hadd, zs, hzs, hstate⟩ := addRange_holds hxs hle hstop junk
  obtain ⟨range, hrange, ys, hys, hrangeState⟩ :=
    Empty.added (.inl (new_blank junk 2).1) hle hstop junk
  have hfits : ∀ o, (none : Option Output) = some o → o.Fits a := fun o ho => by cases ho
  obtain ⟨u, us, hu, hus, hunion⟩ := union_spec hxs hys hfits junk false
  have hsame : zs = us := eq_of_sets hzs.canonical hus.canonical fun v hv => by
    rw [hstate v hv, hunion, hrangeState v hv]
    simp
  refine ⟨l, range, u, hadd, hrange, hu, ⟨zs, hzs⟩, ?_, ?_, fun cp hcp => ?_⟩
  · rw [hzs.array]
    exact hzs.canonical
  · rw [hzs.array, hus.array, hsame]
  · rw [hzs.mem, hxs.mem, hstate cp hcp, Bool.or_eq_true, decide_eq_true_eq]

/-- To 5..9 the range 8..20 is added. -/
theorem add_range_agrees_five : ∃ l range u,
    addRange 7 (some ⟨[0, 5, 10, 7], 3, true, 0⟩) 8 20 = .ok l ∧ ofRange 7 8 20 = .ok range ∧
      union 7 (some ⟨[0, 5, 10, 7], 3, true, 0⟩) range false none = .ok u ∧ Valid l ∧
      Canonical l.array ∧ l.array = u.array ∧ ∀ cp, cp ≤ uvMax → (l.Mem cp ↔
        MemOption (some ⟨[0, 5, 10, 7], 3, true, 0⟩) cp ∨ (8 ≤ cp ∧ cp ≤ 20)) := by
  refine add_range_agrees_with_union _ (fun l hl => ?_) 8 20 (by decide) (by decide) 7
  rw [← Option.some.inj hl]
  exact ⟨[5, 10], .inr ⟨true, ⟨⟨rfl, ⟨[7], rfl⟩, by decide⟩, rfl⟩, ⟨by decide, by decide⟩,
    by rw [WellOffset]; decide⟩⟩

end XPerl.InversionList
