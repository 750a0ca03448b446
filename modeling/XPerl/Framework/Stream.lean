import Mathlib.Tactic.Ring

/-! Buffers that are filled from the blocks of a generator. -/

namespace XPerl.Framework.Stream

section Blocks

variable {σ α : Type} (block : σ → σ × List α)

def after : Nat → σ → σ
  | 0, s => s
  | n + 1, s => after n (block s).1

def elements : Nat → σ → List α
  | 0, _ => []
  | n + 1, s => (block s).2 ++ elements n (block s).1

def blocksFor (width length : Nat) : Nat := (length + width - 1) / width

def filled (width length : Nat) (s : σ) : σ × List α :=
  (after block (blocksFor width length) s, (elements block (blocksFor width length) s).take length)

theorem after_add (m n : Nat) (s : σ) :
    after block (m + n) s = after block n (after block m s) := by
  induction m generalizing s with
  | zero => rw [Nat.zero_add, after]
  | succ m ih => rw [Nat.succ_add, after, after, ih]

theorem elements_add (m n : Nat) (s : σ) :
    elements block (m + n) s = elements block m s ++ elements block n (after block m s) := by
  induction m generalizing s with
  | zero => rw [Nat.zero_add, elements, after, List.nil_append]
  | succ m ih => rw [Nat.succ_add, elements, elements, after, ih, List.append_assoc]

variable {block} {width : Nat}

theorem le_blocksFor (hpos : 0 < width) (length : Nat) :
    length ≤ blocksFor width length * width := by
  have hdiv := Nat.div_add_mod (length + width - 1) width
  have hmod := Nat.mod_lt (length + width - 1) hpos
  rw [blocksFor, Nat.mul_comm]
  omega

theorem blocksFor_zero (hpos : 0 < width) : blocksFor width 0 = 0 :=
  Nat.div_eq_of_lt (by omega)

theorem blocksFor_mul_add (hpos : 0 < width) (m length : Nat) :
    blocksFor width (width * m + length) = m + blocksFor width length := by
  have hsum : width * m + length + width - 1 = width * m + (length + width - 1) := by omega
  rw [blocksFor, blocksFor, hsum, Nat.mul_add_div hpos]

variable {length : Nat}

theorem blocksFor_of_pos (hpos : 0 < width) (hlength : 0 < length) :
    blocksFor width length = blocksFor width (length - width) + 1 := by
  by_cases hle : width ≤ length
  · have hsplit : length = width * 1 + (length - width) := by omega
    have hblocks := blocksFor_mul_add hpos 1 (length - width)
    rw [← hsplit] at hblocks
    rw [hblocks, Nat.add_comm]
  · have hzero : length - width = 0 := by omega
    have hone : length + width - 1 = width * 1 + (length - 1) := by omega
    rw [hzero, blocksFor_zero hpos, blocksFor, hone, Nat.mul_add_div hpos,
      Nat.div_eq_of_lt (by omega)]

theorem filled_zero (hpos : 0 < width) (s : σ) : filled block width 0 s = (s, []) := by
  rw [filled, blocksFor_zero hpos, after, elements, List.take_nil]

variable (hwidth : ∀ s, (block s).2.length = width)

include hwidth

theorem length_elements (n : Nat) (s : σ) :
    (elements block n s).length = n * width := by
  induction n generalizing s with
  | zero => rw [elements, Nat.zero_mul, List.length_nil]
  | succ n ih =>
    rw [elements, List.length_append, hwidth, ih]
    ring

theorem take_elements {m : Nat} (s : σ) (hm : length ≤ m * width) (n : Nat) :
    (elements block (m + n) s).take length = (elements block m s).take length := by
  rw [elements_add, List.take_append_of_le_length]
  rw [length_elements hwidth]
  exact hm

variable (hpos : 0 < width)

include hpos

theorem length_filled (length : Nat) (s : σ) :
    (filled block width length s).2.length = length := by
  rw [filled, List.length_take, length_elements hwidth]
  exact Nat.min_eq_left (le_blocksFor hpos length)

theorem filled_take {longer : Nat} (hle : length ≤ longer) (s : σ) :
    (filled block width length s).2 = (filled block width longer s).2.take length := by
  have hblocks : blocksFor width length ≤ blocksFor width longer := by
    rw [blocksFor, blocksFor]
    exact Nat.div_le_div_right (by omega)
  obtain ⟨more, hmore⟩ := Nat.exists_eq_add_of_le hblocks
  rw [filled, filled, List.take_take, Nat.min_eq_left hle, hmore,
    take_elements hwidth s (le_blocksFor hpos length)]

theorem filled_append (hdvd : width ∣ length) (more : Nat) (s : σ) :
    filled block width (length + more) s =
      ((filled block width more (filled block width length s).1).1,
        (filled block width length s).2 ++
          (filled block width more (filled block width length s).1).2) := by
  obtain ⟨m, rfl⟩ := hdvd
  have hblocks : blocksFor width (width * m) = m := by
    have hadd := blocksFor_mul_add hpos m 0
    rw [blocksFor_zero hpos] at hadd
    exact hadd
  have hlen : (elements block m s).length = width * m := by
    rw [length_elements hwidth, Nat.mul_comm]
  rw [filled, filled, filled, hblocks, blocksFor_mul_add hpos, after_add, elements_add]
  dsimp only
  have hall : (elements block m s).take (width * m) = elements block m s :=
    List.take_of_length_le (Nat.le_of_eq hlen)
  have hall' : (elements block m s).take (width * m + more) = elements block m s :=
    List.take_of_length_le (by omega)
  rw [List.take_append, hlen, Nat.add_sub_cancel_left, hall, hall']

theorem filled_step (hlength : 0 < length) (s : σ) :
    filled block width length s =
      ((filled block width (length - width) (block s).1).1,
        (block s).2.take length ++ (filled block width (length - width) (block s).1).2) := by
  rw [filled, filled, blocksFor_of_pos hpos hlength, after, elements, List.take_append, hwidth]

theorem eq_filled (run : Nat → σ → Nat → σ × List α) (hdone : ∀ fuel s, run fuel s 0 = (s, []))
    (hstep : ∀ fuel s length, 0 < length → run (fuel + 1) s length =
      ((run fuel (block s).1 (length - width)).1,
        (block s).2.take length ++ (run fuel (block s).1 (length - width)).2))
    {fuel : Nat} (hfuel : length ≤ fuel) (s : σ) :
    run fuel s length = filled block width length s := by
  induction fuel generalizing length s with
  | zero =>
    obtain rfl : length = 0 := Nat.le_zero.1 hfuel
    rw [hdone, filled_zero hpos]
  | succ fuel ih =>
    rcases Nat.eq_zero_or_pos length with rfl | hlength
    · rw [hdone, filled_zero hpos]
    · rw [hstep _ _ _ hlength, filled_step hwidth hpos hlength, ih (by omega)]

end Blocks

section Buffers

variable {σ α : Type}

/-- Data stored into a buffer at an offset. -/
def overwrite (offset : Nat) (data buffer : List α) : List α :=
  buffer.take offset ++ (data ++ buffer.drop (offset + data.length))

variable {offset : Nat} {buffer : List α}

theorem length_overwrite {data : List α}
    (h : offset + data.length ≤ buffer.length) :
    (overwrite offset data buffer).length = buffer.length := by
  rw [overwrite, List.length_append, List.length_append, List.length_take, List.length_drop]
  omega

theorem overwrite_nil (offset : Nat) (buffer : List α) : overwrite offset [] buffer = buffer := by
  rw [overwrite, List.nil_append, List.length_nil, Nat.add_zero, List.take_append_drop]

theorem overwrite_cons (h : offset < buffer.length) (a : α)
    (data : List α) :
    overwrite (offset + 1) data (buffer.set offset a) = overwrite offset (a :: data) buffer := by
  have htake : (buffer.set offset a).take (offset + 1) = buffer.take offset ++ [a] := by
    rw [List.take_add_one, List.take_set_of_le (Nat.le_refl _),
      List.getElem?_set_self h, Option.toList_some]
  have hdrop : (buffer.set offset a).drop (offset + 1 + data.length) =
      buffer.drop (offset + (a :: data).length) := by
    rw [List.drop_set_of_lt (by omega), List.length_cons]
    congr 1
    omega
  rw [overwrite, overwrite, htake, hdrop, List.append_assoc, List.singleton_append,
    List.cons_append]

theorem overwrite_overwrite {data : List α}
    (h : offset + data.length ≤ buffer.length) (behind : List α) :
    overwrite (offset + data.length) behind (overwrite offset data buffer) =
      overwrite offset (data ++ behind) buffer := by
  induction data generalizing offset buffer with
  | nil => rw [overwrite_nil, List.length_nil, Nat.add_zero, List.nil_append]
  | cons a data ih =>
    have hlt : offset < buffer.length := by
      rw [List.length_cons] at h
      omega
    have hoffset : offset + (a :: data).length = offset + 1 + data.length := by
      rw [List.length_cons]
      omega
    rw [hoffset] at h ⊢
    rw [List.cons_append, ← overwrite_cons hlt, ← overwrite_cons hlt]
    apply ih
    rw [List.length_set]
    exact h

theorem run_eq_filled {block : σ → σ × List α} {width length : Nat}
    (hwidth : ∀ s, (block s).2.length = width) (hpos : 0 < width)
    (run : Nat → σ → Nat → List α → σ × List α)
    (hdone : ∀ fuel s offset buffer, length ≤ offset → run fuel s offset buffer = (s, buffer))
    (hstep : ∀ fuel s offset buffer, offset < length → length ≤ buffer.length →
      run (fuel + 1) s offset buffer = run fuel (block s).1 (min (offset + width) length)
        (overwrite offset ((block s).2.take (length - offset)) buffer))
    {fuel : Nat} (hfuel : length - offset ≤ fuel)
    (hbuffer : length ≤ buffer.length) (s : σ) :
    run fuel s offset buffer = ((filled block width (length - offset) s).1,
      overwrite offset (filled block width (length - offset) s).2 buffer) := by
  induction fuel generalizing offset buffer s with
  | zero =>
    rw [hdone _ _ _ _ (by omega), Nat.le_zero.1 hfuel, filled_zero hpos, overwrite_nil]
  | succ fuel ih =>
    by_cases hoffset : offset < length
    · have htake : ((block s).2.take (length - offset)).length =
          min (offset + width) length - offset := by
        rw [List.length_take, hwidth]
        omega
      have hnext : min (offset + width) length =
          offset + ((block s).2.take (length - offset)).length := by omega
      have hrest : length - min (offset + width) length = length - offset - width := by omega
      have hfits : offset + ((block s).2.take (length - offset)).length ≤ buffer.length := by omega
      have hlength : length ≤
          (overwrite offset ((block s).2.take (length - offset)) buffer).length := by
        rw [length_overwrite hfits]
        exact hbuffer
      rw [hstep _ _ _ _ hoffset hbuffer, ih (by omega) hlength, hrest,
        filled_step hwidth hpos (by omega : 0 < length - offset), hnext,
        overwrite_overwrite hfits]
    · have hzero : length - offset = 0 := by omega
      rw [hdone _ _ _ _ (by omega), hzero, filled_zero hpos, overwrite_nil]

end Buffers

end XPerl.Framework.Stream
