import Mathlib.Tactic.Common

/-! Allocated blocks of slots, with slots that were never written. -/

namespace XPerl.Framework.Slots

variable {α : Type}

inductive Slot (α : Type) where
  | garbage
  | held (value : α)
  deriving DecidableEq, Repr

/-- A block with the contents of its slots; places outside it mean nothing. -/
structure Block (α : Type) where
  size : Int
  slot : Int → Slot α

namespace Block

def fresh (size : Int) : Block α := ⟨size, fun _ => .garbage⟩

def grown (b : Block α) (size : Int) : Block α :=
  ⟨size, fun i => if i < b.size then b.slot i else .garbage⟩

def write (b : Block α) (place : Int) (x : α) : Block α :=
  ⟨b.size, fun i => if i = place then .held x else b.slot i⟩

def fill (b : Block α) (first count : Int) (x : α) : Block α :=
  ⟨b.size, fun i => if first ≤ i ∧ i < first + count then .held x else b.slot i⟩

/-- `count` slots copied, as if through a second block. -/
def move (b : Block α) (source target count : Int) : Block α :=
  ⟨b.size, fun i =>
    if target ≤ i ∧ i < target + count then b.slot (source + (i - target)) else b.slot i⟩

variable (b : Block α) (i place first count source target size : Int) (x : α)

@[simp] theorem fresh_size : (fresh size : Block α).size = size := rfl

@[simp] theorem grown_size : (b.grown size).size = size := rfl

@[simp] theorem write_size : (b.write place x).size = b.size := rfl

@[simp] theorem fill_size : (b.fill first count x).size = b.size := rfl

@[simp] theorem move_size : (b.move source target count).size = b.size := rfl

variable {b i place first count source target size x}

theorem grown_slot (h : i < b.size) : (b.grown size).slot i = b.slot i := if_pos h

@[simp] theorem write_slot_self : (b.write place x).slot place = .held x := if_pos rfl

theorem write_slot_ne (h : i ≠ place) : (b.write place x).slot i = b.slot i := if_neg h

theorem fill_slot_in (h : first ≤ i) (h' : i < first + count) :
    (b.fill first count x).slot i = .held x := if_pos ⟨h, h'⟩

theorem fill_slot_out (h : i < first ∨ first + count ≤ i) :
    (b.fill first count x).slot i = b.slot i := if_neg (by omega)

theorem move_slot_in (h : target ≤ i) (h' : i < target + count) :
    (b.move source target count).slot i = b.slot (source + (i - target)) := if_pos ⟨h, h'⟩

theorem move_slot_out (h : i < target ∨ target + count ≤ i) :
    (b.move source target count).slot i = b.slot i := if_neg (by omega)

theorem fill_zero : b.fill first 0 x = b := by
  rw [fill]
  congr
  funext j
  exact if_neg (by omega)

theorem write_fill (h : count = place - first) (hfirst : first ≤ place) :
    (b.write place x).fill first count x = b.fill first (count + 1) x := by
  rw [fill, fill, write]
  congr
  funext j
  dsimp only
  split <;> split <;> try omega
  · rfl
  · rw [if_pos (by omega)]
  · rw [if_neg (by omega)]

end Block

end XPerl.Framework.Slots
