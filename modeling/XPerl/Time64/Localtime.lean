import XPerl.Time64.Gmtime

/-! Local time: years outside of the range of the system are replaced by years like them. -/

namespace XPerl.Time64

open XPerl.Framework.Gregorian Date

variable {time offset year y k : Int}

def solarCycleLength : Int := 28

def safeYears : List Int :=
  [2016, 2017, 2018, 2019, 2020, 2021, 2022, 2023, 2024, 2025, 2026, 2027, 2028, 2029, 2030, 2031,
    2032, 2033, 2034, 2035, 2036, 2037, 2010, 2011, 2012, 2013, 2014, 2015]

def isExceptionCentury (year : Int) : Bool := year.tmod 100 = 0 && year.tmod 400 ≠ 0

def cycleOffset (year : Int) : Int :=
  let yearDiff := year - 2000
  let yearDiff := if year > 2000 then yearDiff - 1 else yearDiff
  (yearDiff.tdiv 100 - yearDiff.tdiv 400) * 16

def safeYear (year : Int) : Int :=
  let yearCycle := year + cycleOffset year
  let yearCycle := if isExceptionCentury year then yearCycle + 11 else yearCycle
  let yearCycle := if isExceptionCentury (year - 1) then yearCycle + 17 else yearCycle
  let yearCycle := yearCycle.tmod solarCycleLength
  let yearCycle := if yearCycle < 0 then solarCycleLength + yearCycle else yearCycle
  safeYears.getD yearCycle.toNat 0

def correctYear (gmMon : Nat) (origYear : Int) (tm : Tm) : Tm :=
  let monthDiff : Int := (tm.mon : Int) - gmMon
  let year := if monthDiff = 11 then origYear - 1 else origYear
  let year := if monthDiff = -11 then year + 1 else year
  { tm with
    year
    yday := if ¬ IS_LEAP year ∧ tm.yday = 365 then tm.yday - 1 else tm.yday }

/-- `localtime64_r`, with the range of the system's `localtime` and that function. -/
def localtime64 (sysMin sysMax : Int) (localtime : Int → Option Tm) (time : Int) : Option Tm :=
  if time ≤ sysMax ∧ time ≥ sysMin then localtime time
  else
    let gm := gmtime64 time
    let safe := if gm.year > 2037 - 1900 ∨ gm.year < 1970 - 1900 then
        { gm with year := safeYear (gm.year + 1900) - 1900 }
      else gm
    (timegm64 safe).bind fun safeTime => (localtime safeTime).map (correctYear gm.mon gm.year)

def cycleIndex (year : Int) : Int :=
  (year + cycleOffset year + (if isExceptionCentury year then 11 else 0) +
    (if isExceptionCentury (year - 1) then 17 else 0)) % 28

theorem safeYear_eq (year : Int) : safeYear year = safeYears.getD (cycleIndex year).toNat 0 := by
  have hcycle : (if isExceptionCentury (year - 1) then
      (if isExceptionCentury year then year + cycleOffset year + 11
        else year + cycleOffset year) + 17
      else if isExceptionCentury year then year + cycleOffset year + 11
        else year + cycleOffset year) =
      year + cycleOffset year + (if isExceptionCentury year then 11 else 0) +
        (if isExceptionCentury (year - 1) then 17 else 0) := by
    split_ifs <;> omega
  rw [safeYear, cycleIndex, hcycle]
  generalize year + cycleOffset year + (if isExceptionCentury year then 11 else 0) +
    (if isExceptionCentury (year - 1) then 17 else 0) = cycle
  congr 2
  rw [solarCycleLength]
  by_cases hsign : 0 ≤ cycle
  · rw [Int.tmod_eq_emod_of_nonneg hsign]
    split_ifs <;> omega
  · have htmod : cycle.tmod 28 = -(-cycle % 28) := by
      rw [← Int.tmod_eq_emod_of_nonneg (by omega), Int.neg_tmod, Int.neg_neg]
    rw [htmod]
    split_ifs <;> omega

theorem isExceptionCentury_iff (year : Int) :
    isExceptionCentury year = true ↔ year % 100 = 0 ∧ year % 400 ≠ 0 := by
  simp [isExceptionCentury, tmod_eq_zero]

theorem isExceptionCentury_cycle (year k : Int) :
    isExceptionCentury (year + 400 * k) = isExceptionCentury year := by
  rw [Bool.eq_iff_iff, isExceptionCentury_iff, isExceptionCentury_iff]
  omega

theorem cycleIndex_cycle (h : 2000 < year ∧ 0 ≤ k ∨ year ≤ 2000 ∧ k ≤ 0) :
    cycleIndex (year + 400 * k) = cycleIndex year := by
  have hoffset : cycleOffset (year + 400 * k) = cycleOffset year + 48 * k := by
    rw [cycleOffset, cycleOffset]
    rcases h with ⟨hyear, hk⟩ | ⟨hyear, hk⟩
    · rw [if_pos (by omega), if_pos (by omega), Int.tdiv_eq_ediv_of_nonneg (by omega),
        Int.tdiv_eq_ediv_of_nonneg (by omega), Int.tdiv_eq_ediv_of_nonneg (by omega),
        Int.tdiv_eq_ediv_of_nonneg (by omega)]
      omega
    · have hneg (n b : Int) (hn : n ≤ 0) : n.tdiv b = -(-n / b) := by
        rw [← Int.tdiv_eq_ediv_of_nonneg (by omega), Int.neg_tdiv, Int.neg_neg]
      rw [if_neg (by omega), if_neg (by omega), hneg _ _ (by omega), hneg _ _ (by omega),
        hneg _ _ (by omega), hneg _ _ (by omega)]
      omega
  rw [cycleIndex, cycleIndex, hoffset, isExceptionCentury_cycle,
    show year + 400 * k - 1 = year - 1 + 400 * k by omega, isExceptionCentury_cycle]
  omega

/-- The year that stands for another starts on the same weekday and is as long, and follows a leap
year if the other does. -/
def Matches (safe year : Int) : Prop :=
  (2010 ≤ safe ∧ safe ≤ 2037) ∧ isLeap safe = isLeap year ∧
    (yearStart safe - yearStart year) % 7 = 0 ∧
    (isLeap (year - 1) = true → isLeap (safe - 1) = true)

instance (safe year : Int) : Decidable (Matches safe year) :=
  inferInstanceAs (Decidable ((2010 ≤ safe ∧ safe ≤ 2037) ∧ isLeap safe = isLeap year ∧
    (yearStart safe - yearStart year) % 7 = 0 ∧
    (isLeap (year - 1) = true → isLeap (safe - 1) = true)))

theorem safeYear_matches (year : Int) : Matches (safeYear year) year := by
  have hcycle (y k : Int) (h : 2000 < y ∧ 0 ≤ k ∨ y ≤ 2000 ∧ k ≤ 0)
      (hy : Matches (safeYear y) y) : Matches (safeYear (y + 400 * k)) (y + 400 * k) := by
    obtain ⟨hrange, hleap, hweekday, hlast⟩ := hy
    rw [safeYear_eq, cycleIndex_cycle h, ← safeYear_eq]
    refine ⟨hrange, by rw [isLeap_cycle, hleap], ?_, ?_⟩
    · rw [yearStart_cycle]
      omega
    · rw [show y + 400 * k - 1 = y - 1 + 400 * k by omega, isLeap_cycle]
      exact hlast
  have hall : ∀ r < 400, Matches (safeYear (2001 + (r : Nat))) (2001 + (r : Nat)) ∧
      Matches (safeYear (1601 + (r : Nat))) (1601 + (r : Nat)) := by decide +kernel
  obtain ⟨r, hr⟩ : ∃ r : Nat, (r : Int) = (year - 1) % 400 :=
    ⟨((year - 1) % 400).toNat, by omega⟩
  obtain ⟨hafter, hbefore⟩ := hall r (by omega)
  by_cases hyear : 2000 < year
  · have hmoved := hcycle (2001 + r) ((year - 2001) / 400) (by omega) hafter
    rwa [show (2001 : Int) + r + 400 * ((year - 2001) / 400) = year by omega] at hmoved
  · have hmoved := hcycle (1601 + r) ((year - 1601) / 400) (by omega) hbefore
    rwa [show (1601 : Int) + r + 400 * ((year - 1601) / 400) = year by omega] at hmoved

section Shifting

variable {gm tm : Tm} {safe : Int}

/-- What a replacing year has to have in common with a year. -/
structure Like (safe year : Int) : Prop where
  leap : isLeap safe = isLeap year
  weekday : (yearStart safe - yearStart year) % 7 = 0
  last : isLeap (year - 1) = true → isLeap (safe - 1) = true

theorem replaced_shows (h : gm.Shows time) (hlike : Like safe (gm.year + 1900)) :
    ({ gm with year := safe - 1900 } : Tm).Shows
      (time + 86400 * (yearStart safe - yearStart (gm.year + 1900))) := by
  obtain ⟨hvalid, hsec, hmin, hhour, htime, hwday, hyday⟩ := h
  obtain ⟨hleap, hweekday, -⟩ := hlike
  have hyear : safe - 1900 + 1900 = safe := by omega
  have hyearDay : (mk safe gm.mon gm.mday).yearDay = gm.date.yearDay := by
    rw [yearDay, yearDay, hleap]
    rfl
  have hnumber : (mk safe gm.mon gm.mday).number =
      gm.date.number + (yearStart safe - yearStart (gm.year + 1900)) := by
    rw [number, number, hyearDay]
    change yearStart safe + _ = yearStart (gm.year + 1900) + _ + _
    omega
  refine ⟨?_, hsec, hmin, hhour, ?_, ?_, ?_⟩
  · obtain ⟨hmon, hlow, hhigh⟩ := hvalid
    refine ⟨hmon, hlow, ?_⟩
    rw [Tm.date, hyear, hleap]
    exact hhigh
  · rw [Tm.date, hyear, hnumber, htime]
    dsimp only
    omega
  · rw [Tm.date, hyear, Date.weekday, hnumber]
    rw [Date.weekday] at hwday
    dsimp only
    omega
  · rw [Tm.date, hyear, hyearDay]
    exact hyday

theorem correctYear_year (gmMon : Nat) (origYear : Int) (tm : Tm) :
    (correctYear gmMon origYear tm).year =
      if tm.mon = gmMon + 11 then origYear - 1
      else if gmMon = tm.mon + 11 then origYear + 1 else origYear := by
  rw [correctYear]
  dsimp only
  split_ifs <;> omega

theorem correctYear_yday (gmMon : Nat) (origYear : Int) (tm : Tm) :
    (correctYear gmMon origYear tm).yday =
      if isLeap ((correctYear gmMon origYear tm).year + 1900) = false ∧ tm.yday = 365
        then tm.yday - 1 else tm.yday := by
  rw [← IS_LEAP_eq]
  simp [correctYear]

theorem correctYear_shows (h : gm.Shows time) (hlike : Like safe (gm.year + 1900))
    (hlow : -86400 < offset) (hhigh : offset < 86400)
    (htm : tm.Shows (time + 86400 * (yearStart safe - yearStart (gm.year + 1900)) + offset)) :
    (correctYear gm.mon gm.year tm).Shows (time + offset) := by
  have hreplaced := (replaced_shows h hlike).valid
  have hreplacedTime := (replaced_shows h hlike).time_eq
  obtain ⟨hleap, hweekday, hlast⟩ := hlike
  obtain ⟨hvalid, hsec, hmin, hhour, htime, hwday, hyday⟩ := htm
  obtain ⟨-, hsec', hmin', hhour', -, -, -⟩ := h
  have hyear : safe - 1900 + 1900 = safe := by omega
  rw [Tm.date, hyear] at hreplaced hreplacedTime
  dsimp only at hreplaced hreplacedTime
  have hmon : tm.mon < 12 := hvalid.1
  have hmon' : gm.mon < 12 := hreplaced.1
  have hrange := hvalid.number_range
  have hrange' : yearStart safe ≤ (mk safe gm.mon gm.mday).number ∧
      (mk safe gm.mon gm.mday).number < yearStart (safe + 1) := hreplaced.number_range
  have hdayRange := hvalid.yearDay_range
  have hdayRange' : 0 ≤ (mk safe gm.mon gm.mday).yearDay ∧
      (mk safe gm.mon gm.mday).yearDay < yearLength (isLeap safe) := hreplaced.yearDay_range
  have hday : tm.date.number = yearStart tm.date.year + tm.date.yearDay := rfl
  have hday' : (mk safe gm.mon gm.mday).number =
      yearStart safe + (mk safe gm.mon gm.mday).yearDay := rfl
  have hnear : -1 ≤ tm.date.number - (mk safe gm.mon gm.mday).number ∧
      tm.date.number - (mk safe gm.mon gm.mday).number ≤ 1 := by omega
  -- The year that is meant holds the day that is meant.
  have hmeant (year : Int) (hcorrect : (correctYear gm.mon gm.year tm).year = year)
      (hnewValid : (mk (year + 1900) tm.mon tm.mday).Valid)
      (hnewNumber : (mk (year + 1900) tm.mon tm.mday).number =
        tm.date.number - (yearStart safe - yearStart (gm.year + 1900)))
      (hnewDay : (correctYear gm.mon gm.year tm).yday =
        (mk (year + 1900) tm.mon tm.mday).yearDay) :
      (correctYear gm.mon gm.year tm).Shows (time + offset) := by
    have hdate : (correctYear gm.mon gm.year tm).date = mk (year + 1900) tm.mon tm.mday := by
      rw [Tm.date, hcorrect]
      rfl
    refine ⟨hdate ▸ hnewValid, hsec, hmin, hhour, ?_, ?_, hdate ▸ hnewDay⟩
    · rw [hdate, hnewNumber]
      change _ = _ + 3600 * tm.hour + 60 * tm.min + tm.sec
      omega
    · rw [hdate, Date.weekday, hnewNumber]
      change tm.wday = _
      rw [hwday, Date.weekday]
      omega
  have hcorrect := correctYear_year gm.mon gm.year tm
  have hcorrectDay := correctYear_yday gm.mon gm.year tm
  rcases Int.lt_trichotomy tm.date.year safe with hbefore | hsame | hbehind
  · -- The last day of the year before: the replaced day is the first one.
    have hmono := yearStart_mono hbefore
    have hprevious : tm.date.year = safe - 1 := by
      have hstart := yearStart_succ (safe - 1)
      have hlength := yearLength_range (isLeap (safe - 1))
      rw [show safe - 1 + 1 = safe by omega] at hstart
      refine year_unique hrange ⟨by omega, ?_⟩
      rw [show safe - 1 + 1 = safe by omega]
      omega
    have hstart := yearStart_succ tm.date.year
    rw [show tm.date.year + 1 = safe by omega] at hstart
    obtain ⟨hfirst, -⟩ := hreplaced.first_day (by omega)
    obtain ⟨hlastMonth, hlastDay⟩ := hvalid.last_day (by omega)
    change gm.mon = 0 at hfirst
    change tm.mon = 11 at hlastMonth
    change tm.mday = 31 at hlastDay
    rw [if_pos (by omega)] at hcorrect
    have hnewYear := yearStart_succ (gm.year + 1900 - 1)
    rw [show gm.year + 1900 - 1 + 1 = gm.year + 1900 by omega] at hnewYear
    have hnewDay : (mk (gm.year - 1 + 1900) tm.mon tm.mday).yearDay =
        yearLength (isLeap (gm.year + 1900 - 1)) - 1 := by
      rw [yearDay, show gm.year - 1 + 1900 = gm.year + 1900 - 1 by omega]
      dsimp only
      rw [hlastMonth, hlastDay]
      cases isLeap (gm.year + 1900 - 1) <;> decide
    refine hmeant (gm.year - 1) hcorrect ⟨hmon, ?_, ?_⟩ ?_ ?_
    · change 1 ≤ tm.mday
      omega
    · change tm.mday ≤ monthLength (isLeap (gm.year - 1 + 1900)) tm.mon
      rw [hlastDay, hlastMonth]
      cases isLeap (gm.year - 1 + 1900) <;> decide
    · rw [number, hnewDay]
      change yearStart (gm.year - 1 + 1900) + _ = _
      rw [show gm.year - 1 + 1900 = gm.year + 1900 - 1 by omega]
      omega
    · rw [hcorrectDay, hcorrect, hnewDay, hyday,
        show gm.year - 1 + 1900 = gm.year + 1900 - 1 by omega]
      have hthis : tm.date.yearDay = yearLength (isLeap (safe - 1)) - 1 := by
        rw [hprevious] at hstart hday
        omega
      rw [hthis]
      cases hleapYear : isLeap (gm.year + 1900 - 1) with
      | true =>
        rw [hlast hleapYear]
        rfl
      | false => cases isLeap (safe - 1) <;> rfl
  · -- A day of the same year.
    have hends : (334 : Int) ≤ monthStart (isLeap safe) 11 := by
      cases isLeap safe <;> decide
    have hfirst : monthLength (isLeap safe) 0 = 31 := by
      cases isLeap safe <;> rfl
    have hyearDay : tm.date.yearDay = monthStart (isLeap safe) tm.mon + (tm.mday - 1) := by
      rw [yearDay, hsame]
      rfl
    have hyearDay' : (mk safe gm.mon gm.mday).yearDay =
        monthStart (isLeap safe) gm.mon + (gm.mday - 1) := rfl
    have hmday : 1 ≤ tm.mday ∧ tm.mday ≤ monthLength (isLeap safe) tm.mon := by
      rw [← hsame]
      exact hvalid.2
    have hmday' : 1 ≤ gm.mday ∧ gm.mday ≤ monthLength (isLeap safe) gm.mon := hreplaced.2
    have hzero : monthStart (isLeap safe) 0 = 0 := rfl
    have hstart : yearStart tm.date.year = yearStart safe := by rw [hsame]
    have hnotLast : tm.mon ≠ gm.mon + 11 := by
      intro heq
      obtain ⟨hm, hm'⟩ : gm.mon = 0 ∧ tm.mon = 11 := by omega
      have hjanuary : monthStart (isLeap safe) gm.mon = 0 := by rw [hm, hzero]
      rw [hm, hfirst] at hmday'
      rw [hm'] at hyearDay
      omega
    have hnotFirst : gm.mon ≠ tm.mon + 11 := by
      intro heq
      obtain ⟨hm, hm'⟩ : tm.mon = 0 ∧ gm.mon = 11 := by omega
      have hdecember : 334 ≤ monthStart (isLeap safe) gm.mon := by rwa [hm']
      rw [hm, hzero] at hyearDay
      rw [hm, hfirst] at hmday
      omega
    rw [if_neg hnotLast, if_neg hnotFirst] at hcorrect
    have hnewDay : (mk (gm.year + 1900) tm.mon tm.mday).yearDay = tm.date.yearDay := by
      rw [hyearDay, hleap]
      rfl
    refine hmeant gm.year hcorrect ⟨hmon, hmday.1, ?_⟩ ?_ ?_
    · change tm.mday ≤ monthLength (isLeap (gm.year + 1900)) tm.mon
      rw [← hleap]
      exact hmday.2
    · rw [number, hnewDay]
      change yearStart (gm.year + 1900) + _ = _
      rw [hsame] at hday
      omega
    · rw [hcorrectDay, hcorrect, hnewDay, if_neg, hyday]
      rintro ⟨hno, hmany⟩
      rw [hsame, hleap, hno] at hdayRange
      change 0 ≤ tm.date.yearDay ∧ tm.date.yearDay < 365 at hdayRange
      omega
  · -- The first day of the year behind: the replaced day is the last one.
    have hmono := yearStart_mono hbehind
    have hnext : tm.date.year = safe + 1 := by
      have hstart := yearStart_succ (safe + 1)
      have hlength := yearLength_range (isLeap (safe + 1))
      exact year_unique hrange ⟨by omega, by omega⟩
    have hstart := yearStart_succ safe
    rw [hnext] at hday
    obtain ⟨hfirst, hfirstDay⟩ := hvalid.first_day (by omega)
    obtain ⟨hlastMonth, -⟩ := hreplaced.last_day (by
      change _ = yearLength (isLeap safe) - 1
      omega)
    change gm.mon = 11 at hlastMonth
    change tm.mon = 0 at hfirst
    change tm.mday = 1 at hfirstDay
    rw [if_neg (by omega), if_pos (by omega)] at hcorrect
    have hnewYear := yearStart_succ (gm.year + 1900)
    have hnewDay : (mk (gm.year + 1 + 1900) tm.mon tm.mday).yearDay = 0 := by
      rw [yearDay]
      dsimp only
      rw [hfirst, hfirstDay]
      rfl
    have hzero : tm.date.yearDay = 0 := by omega
    refine hmeant (gm.year + 1) hcorrect ⟨hmon, ?_, ?_⟩ ?_ ?_
    · change 1 ≤ tm.mday
      omega
    · change tm.mday ≤ monthLength (isLeap (gm.year + 1 + 1900)) tm.mon
      rw [hfirstDay, hfirst]
      cases isLeap (gm.year + 1 + 1900) <;> decide
    · rw [number, hnewDay]
      change yearStart (gm.year + 1 + 1900) + _ = _
      rw [show gm.year + 1 + 1900 = gm.year + 1900 + 1 by omega, hnewYear, ← hleap]
      omega
    · rw [hcorrectDay, hcorrect, hnewDay, hyday, hzero, if_neg]
      rintro ⟨-, hmany⟩
      omega

def Constant (localtime : Int → Option Tm) (offset : Int) : Prop :=
  ∀ time, ∃ tm, localtime time = some tm ∧ tm.Shows (time + offset)

theorem localtime64_shows {localtime : Int → Option Tm} (sysMin sysMax time : Int)
    (hlow : -86400 < offset) (hhigh : offset < 86400) (hzone : Constant localtime offset) :
    ∃ tm, localtime64 sysMin sysMax localtime time = some tm ∧ tm.Shows (time + offset) := by
  rw [localtime64]
  by_cases hsystem : time ≤ sysMax ∧ time ≥ sysMin
  · rw [if_pos hsystem]
    exact hzone time
  · rw [if_neg hsystem]
    have hgm := gmtime64_shows time
    obtain ⟨safe, hsafe, hlike, hrange⟩ : ∃ safe,
        (if (gmtime64 time).year > 2037 - 1900 ∨ (gmtime64 time).year < 1970 - 1900 then
          { gmtime64 time with year := safeYear ((gmtime64 time).year + 1900) - 1900 }
          else gmtime64 time) = { gmtime64 time with year := safe - 1900 } ∧
        Like safe ((gmtime64 time).year + 1900) ∧ 1970 ≤ safe ∧ safe ≤ 2037 := by
      by_cases hfar : (gmtime64 time).year > 2037 - 1900 ∨ (gmtime64 time).year < 1970 - 1900
      · obtain ⟨hsafe, hleap, hweekday, hlast⟩ := safeYear_matches ((gmtime64 time).year + 1900)
        exact ⟨_, if_pos hfar, ⟨hleap, hweekday, hlast⟩, by omega, hsafe.2⟩
      · refine ⟨(gmtime64 time).year + 1900, ?_, ⟨rfl, by omega, id⟩, by omega, by omega⟩
        rw [if_neg hfar, show (gmtime64 time).year + 1900 - 1900 = (gmtime64 time).year by omega]
    have hshows := replaced_shows hgm hlike
    have hfits : ∀ tm : Tm, tm.date.year = safe → tm.date.Valid →
        -(2 ^ 31) ≤ yearStart tm.date.year ∧ tm.date.number < 2 ^ 31 := by
      intro tm hyear hvalid
      have hnumber := hvalid.number_range
      rw [hyear, yearStart, yearStart] at *
      omega
    dsimp only
    rw [hsafe, timegm64_shows hshows,
      if_pos (hfits { gmtime64 time with year := safe - 1900 } (Int.sub_add_cancel safe 1900)
        hshows.valid), Option.bind_some]
    obtain ⟨tm, htm, hthis⟩ := hzone
      (time + 86400 * (yearStart safe - yearStart ((gmtime64 time).year + 1900)))
    rw [htm]
    exact ⟨_, rfl, correctYear_shows hgm hlike hlow hhigh hthis⟩

end Shifting

section Conversion

variable {localtime : Int → Option Tm}

theorem days_fit_iff {tm : Tm} (h : tm.Shows time) :
    -(2 ^ 31) ≤ yearStart tm.date.year ∧ tm.date.number < 2 ^ 31 ↔
      -185542570598400 ≤ time ∧ time < 185542587187200 := by
  obtain ⟨hvalid, hsec, hmin, hhour, htime, -, -⟩ := h
  have hrange := hvalid.number_range
  have hfirst : yearStart (-5877640) = -2147483456 := by decide
  have hlast : yearStart (-5877641) = -2147483821 := by decide
  have hnumber : -185542570598400 ≤ time ↔ -2147483456 ≤ tm.date.number := by omega
  have hyear : -(2 ^ 31) ≤ yearStart tm.date.year ↔ -2147483456 ≤ tm.date.number := by
    rcases Int.lt_trichotomy tm.date.year (-5877640) with hlt | heq | hlt
    · have hmono := yearStart_mono hlt
      have hbefore : yearStart tm.date.year ≤ -2147483821 := by
        rcases Int.lt_trichotomy tm.date.year (-5877641) with hlt' | heq' | hlt'
        · have hmono' := yearStart_mono hlt'
          omega
        · exact Int.le_of_eq (heq' ▸ hlast)
        · omega
      omega
    · have hthis : yearStart tm.date.year = -2147483456 := by rw [heq, hfirst]
      omega
    · have hmono := yearStart_mono hlt
      have hnext := yearStart_succ (-5877640)
      have hlength := yearLength_range (isLeap (-5877640))
      omega
  omega

theorem year_fits {tm : Tm} (h : tm.Shows time) (hfar : -(2 ^ 52) ≤ time ∧ time ≤ 2 ^ 52) :
    -(2 ^ 31) ≤ tm.year ∧ tm.year < 2 ^ 31 := by
  obtain ⟨hvalid, hsec, hmin, hhour, htime, -, -⟩ := h
  have hrange := hvalid.number_range
  have hyear : tm.date.year = tm.year + 1900 := rfl
  rw [hyear, yearStart, yearStart] at hrange
  omega

end Conversion

end XPerl.Time64
