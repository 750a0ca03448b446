import Mathlib.Tactic.Common

/-! The proleptic Gregorian calendar on the line of day numbers, with 1970-01-01 as day 0. -/

namespace XPerl.Framework.Gregorian

variable {y y' n k : Int} {m m' : Nat}

def isLeap (y : Int) : Bool := y % 4 = 0 && (y % 100 ≠ 0 || y % 400 = 0)

def yearLength (leap : Bool) : Int := if leap then 366 else 365

def yearStart (y : Int) : Int :=
  365 * (y - 1970) + ((y - 1) / 4 - 492) - ((y - 1) / 100 - 19) + ((y - 1) / 400 - 4)

theorem yearLength_range (leap : Bool) : 365 ≤ yearLength leap ∧ yearLength leap ≤ 366 := by
  cases leap <;> decide

theorem isLeap_iff : isLeap y = true ↔ y % 4 = 0 ∧ (y % 100 ≠ 0 ∨ y % 400 = 0) := by
  simp [isLeap]

theorem yearStart_succ (y : Int) : yearStart (y + 1) = yearStart y + yearLength (isLeap y) := by
  have hiff := isLeap_iff (y := y)
  rw [yearStart, yearStart, yearLength]
  split_ifs with hleap
  · have hcases := hiff.1 hleap
    omega
  · have hcases := mt hiff.2 hleap
    omega

theorem yearStart_cycle (y k : Int) : yearStart (y + 400 * k) = yearStart y + 146097 * k := by
  rw [yearStart, yearStart]
  omega

theorem isLeap_cycle (y k : Int) : isLeap (y + 400 * k) = isLeap y := by
  rw [Bool.eq_iff_iff, isLeap_iff, isLeap_iff]
  omega

theorem yearStart_mono (h : y < y') : yearStart (y + 1) ≤ yearStart y' := by
  rw [yearStart, yearStart]
  omega

theorem year_unique (h : yearStart y ≤ n ∧ n < yearStart (y + 1))
    (h' : yearStart y' ≤ n ∧ n < yearStart (y' + 1)) : y = y' := by
  rcases Int.lt_trichotomy y y' with hlt | heq | hlt
  · have hmono := yearStart_mono hlt
    omega
  · exact heq
  · have hmono := yearStart_mono hlt
    omega

def monthLengths (leap : Bool) : List Int :=
  [31, if leap then 29 else 28, 31, 30, 31, 30, 31, 31, 30, 31, 30, 31]

def monthLength (leap : Bool) (m : Nat) : Int := (monthLengths leap).getD m 0

def monthStart (leap : Bool) (m : Nat) : Int := ((monthLengths leap).take m).foldl (· + ·) 0

theorem monthStart_succ (leap : Bool) (h : m < 12) :
    monthStart leap (m + 1) = monthStart leap m + monthLength leap m := by
  revert m
  cases leap <;> decide

theorem monthStart_year (leap : Bool) : monthStart leap 12 = yearLength leap := by
  cases leap <;> decide

theorem monthStart_range (leap : Bool) (h : m < 12) :
    0 ≤ monthStart leap m ∧ monthStart leap (m + 1) ≤ yearLength leap := by
  revert m
  cases leap <;> decide

theorem monthStart_mono (leap : Bool) (h : m < m') (h' : m' < 12) :
    monthStart leap (m + 1) ≤ monthStart leap m' := by
  have hall : ∀ m' < 12, ∀ m < m', monthStart leap (m + 1) ≤ monthStart leap m' := by
    cases leap <;> decide
  exact hall m' h' m h

theorem monthStart_ends (leap : Bool) (h : m < 12) :
    (m ≠ 0 → 31 ≤ monthStart leap m) ∧ (m ≠ 11 → monthStart leap (m + 1) ≤ yearLength leap - 31) := by
  revert m
  cases leap <;> decide

section Dates

structure Date where
  year : Int
  month : Nat
  day : Int
deriving DecidableEq

namespace Date

variable {d e : Date}

def Valid (d : Date) : Prop :=
  d.month < 12 ∧ 1 ≤ d.day ∧ d.day ≤ monthLength (isLeap d.year) d.month

def yearDay (d : Date) : Int := monthStart (isLeap d.year) d.month + (d.day - 1)

def number (d : Date) : Int := yearStart d.year + d.yearDay

def weekday (d : Date) : Int := (d.number + 4) % 7

theorem Valid.yearDay_range (h : d.Valid) :
    0 ≤ d.yearDay ∧ d.yearDay < yearLength (isLeap d.year) := by
  obtain ⟨hmonth, hlow, hhigh⟩ := h
  have hrange := monthStart_range (isLeap d.year) hmonth
  rw [monthStart_succ _ hmonth] at hrange
  rw [yearDay]
  omega

theorem Valid.number_range (h : d.Valid) :
    yearStart d.year ≤ d.number ∧ d.number < yearStart (d.year + 1) := by
  have hrange := h.yearDay_range
  rw [yearStart_succ, number]
  omega

theorem Valid.first_day (h : d.Valid) (hday : d.yearDay = 0) : d.month = 0 ∧ d.day = 1 := by
  obtain ⟨hmonth, hlow, -⟩ := h
  have hrange := monthStart_range (isLeap d.year) hmonth
  have hends := (monthStart_ends (isLeap d.year) hmonth).1
  rw [yearDay] at hday
  omega

theorem Valid.last_day (h : d.Valid) (hday : d.yearDay = yearLength (isLeap d.year) - 1) :
    d.month = 11 ∧ d.day = 31 := by
  obtain ⟨hmonth, -, hhigh⟩ := h
  have hsucc := monthStart_succ (isLeap d.year) hmonth
  have hends := (monthStart_ends (isLeap d.year) hmonth).2
  rw [yearDay] at hday
  have hlast : d.month = 11 := by omega
  have hlength : monthLength (isLeap d.year) 11 = 31 := by
    cases isLeap d.year <;> decide
  have hstart : monthStart (isLeap d.year) (11 + 1) = yearLength (isLeap d.year) :=
    monthStart_year _
  rw [hlast, hlength] at hsucc
  rw [hlast] at hday
  omega

theorem Valid.eq_of_yearDay (h : d.Valid) (h' : e.Valid) (hyear : d.year = e.year)
    (hday : d.yearDay = e.yearDay) : d = e := by
  obtain ⟨hmonth, hlow, hhigh⟩ := h
  obtain ⟨hmonth', hlow', hhigh'⟩ := h'
  rw [yearDay, yearDay, hyear] at hday
  rw [hyear] at hhigh
  have hsucc := monthStart_succ (isLeap e.year) hmonth
  have hsucc' := monthStart_succ (isLeap e.year) hmonth'
  have hmonths : d.month = e.month := by
    rcases Nat.lt_trichotomy d.month e.month with hlt | heq | hlt
    · have hmono := monthStart_mono (isLeap e.year) hlt hmonth'
      omega
    · exact heq
    · have hmono := monthStart_mono (isLeap e.year) hlt hmonth
      omega
  cases d
  cases e
  simp only at hyear hmonths hday
  subst hyear hmonths
  congr
  omega

theorem Valid.eq_of_number (h : d.Valid) (h' : e.Valid) (hnumber : d.number = e.number) :
    d = e := by
  have hyear : d.year = e.year := year_unique h.number_range (hnumber ▸ h'.number_range)
  refine h.eq_of_yearDay h' hyear ?_
  rw [number, number, hyear] at hnumber
  omega

end Date

end Dates

end XPerl.Framework.Gregorian
