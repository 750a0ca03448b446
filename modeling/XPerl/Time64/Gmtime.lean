import Mathlib.Algebra.Order.Ring.Int
import XPerl.Framework.Gregorian

/-! Seconds to the fields of a date and back. -/

namespace XPerl.Time64

open XPerl.Framework.Gregorian

variable {time m year days day b tmYear : Int} {n mon : Nat} {leap : Bool}

/-- `struct TM` -/
structure Tm where
  sec : Int
  min : Int
  hour : Int
  mday : Int
  mon : Nat
  year : Int
  wday : Int
  yday : Int
deriving DecidableEq

def daysInMonth (leap : Bool) : List Int :=
  if leap then [31, 29, 31, 30, 31, 30, 31, 31, 30, 31, 30, 31]
  else [31, 28, 31, 30, 31, 30, 31, 31, 30, 31, 30, 31]

def julianDaysByMonth (leap : Bool) : List Int :=
  if leap then [0, 31, 60, 91, 121, 152, 182, 213, 244, 274, 305, 335]
  else [0, 31, 59, 90, 120, 151, 181, 212, 243, 273, 304, 334]

def lengthOfYear (leap : Bool) : Int := if leap then 366 else 365

def yearsInGregorianCycle : Int := 400

def daysInGregorianCycle : Int := 365 * 400 + 100 - 4 + 1

def cheatDays : Int := 1199145600 / 24 / 60 / 60

def cheatYears : Int := 108

def IS_LEAP (n : Int) : Bool :=
  (n + 1900).tmod 400 = 0 || ((n + 1900).tmod 4 = 0 && (n + 1900).tmod 100 ≠ 0)

/-- `WRAP`: a field below zero borrows from the next one. -/
def wrap (a b m : Int) : Int × Int := if a < 0 then (a + m, b - 1) else (a, b)

def floorDiv (a b : Int) : Int := a / b

def ceilDiv (a b : Int) : Int := -(-a / b)

def whole (time b : Int) : Int := if time ≥ 0 then floorDiv time b else ceilDiv time b

def yearsUp : Nat → Int → Int → Int × Int
  | 0, m, year => (m, year)
  | n + 1, m, year =>
    if m ≥ lengthOfYear (IS_LEAP year) then yearsUp n (m - lengthOfYear (IS_LEAP year)) (year + 1)
    else (m, year)

def monthsUp (leap : Bool) : Nat → Int → Nat → Int × Nat
  | 0, m, mon => (m, mon)
  | n + 1, m, mon =>
    if m ≥ (daysInMonth leap).getD mon 0 then
      monthsUp leap n (m - (daysInMonth leap).getD mon 0) (mon + 1)
    else (m, mon)

def yearsDown : Nat → Int → Int → Int × Int
  | 0, m, year => (m, year)
  | n + 1, m, year =>
    if m < -lengthOfYear (IS_LEAP year) then
      yearsDown n (m + lengthOfYear (IS_LEAP year)) (year - 1)
    else (m, year)

def monthsDown (leap : Bool) : Nat → Int → Nat → Int × Nat
  | 0, m, mon => (m, mon)
  | n + 1, m, mon =>
    if m < -(daysInMonth leap).getD mon 0 then
      monthsDown leap n (m + (daysInMonth leap).getD mon 0) (mon - 1)
    else (m, mon)

def yearAndMonth (tday : Int) : Int × Nat × Int :=
  let (m, year) := if tday ≥ cheatDays then (tday - cheatDays, cheatYears) else (tday, 70)
  if m ≥ 0 then
    let cycles := floorDiv m daysInGregorianCycle
    let (m, year) := yearsUp 400 (m - cycles * daysInGregorianCycle)
      (year + cycles * yearsInGregorianCycle)
    let (m, mon) := monthsUp (IS_LEAP year) 12 m 0
    (year, mon, m)
  else
    let year := year - 1
    let cycles := ceilDiv m daysInGregorianCycle + 1
    let (m, year) := yearsDown 800 (m - cycles * daysInGregorianCycle)
      (year + cycles * yearsInGregorianCycle)
    let (m, mon) := monthsDown (IS_LEAP year) 12 m 11
    (year, mon, m + (daysInMonth (IS_LEAP year)).getD mon 0)

def gmtime64 (time : Int) : Tm :=
  let sec := time.tmod 60
  let time := whole time 60
  let min := time.tmod 60
  let time := whole time 60
  let hour := time.tmod 24
  let tday := whole time 24
  let (sec, min) := wrap sec min 60
  let (min, hour) := wrap min hour 60
  let (hour, tday) := wrap hour tday 24
  let wday := (tday + 4).tmod 7
  let wday := if wday < 0 then wday + 7 else wday
  let (year, mon, m) := yearAndMonth tday
  { sec, min, hour, mday := m + 1, mon, year, wday
    yday := (julianDaysByMonth (IS_LEAP year)).getD mon 0 + m }

/-- Addition of an `int`; none where it overflows. -/
def intAdd (a b : Int) : Option Int :=
  if -(2 ^ 31) ≤ a + b ∧ a + b < 2 ^ 31 then some (a + b) else none

def daysSince (tmYear : Int) : Nat → Int → Int → Option Int
  | 0, _, days => some days
  | n + 1, year, days =>
    if year < tmYear then
      (intAdd days (lengthOfYear (IS_LEAP year))).bind (daysSince tmYear n (year + 1))
    else some days

def daysUntil (tmYear : Int) : Nat → Int → Int → Option Int
  | 0, _, days => some days
  | n + 1, year, days =>
    (intAdd days (-lengthOfYear (IS_LEAP year))).bind fun days =>
      if year - 1 ≥ tmYear then daysUntil tmYear n (year - 1) days else some days

def daysOfYears (tmYear : Int) : Option Int :=
  if tmYear > 70 then daysSince tmYear (tmYear - 70).toNat 70 0
  else if tmYear < 70 then daysUntil tmYear (70 - tmYear).toNat 69 0
  else some 0

def timegm64 (date : Tm) : Option Int := do
  let days ← daysOfYears date.year
  let days ← intAdd days ((julianDaysByMonth (IS_LEAP date.year)).getD date.mon 0)
  let days ← intAdd days (date.mday - 1)
  return days * 60 * 60 * 24 + date.hour * 60 * 60 + date.min * 60 + date.sec

def Tm.date (tm : Tm) : Date := ⟨tm.year + 1900, tm.mon, tm.mday⟩

/-- The fields show a time: its date, its time of day, its weekday and its day of the year. -/
structure Tm.Shows (tm : Tm) (time : Int) : Prop where
  valid : tm.date.Valid
  sec : 0 ≤ tm.sec ∧ tm.sec < 60
  min : 0 ≤ tm.min ∧ tm.min < 60
  hour : 0 ≤ tm.hour ∧ tm.hour < 24
  time_eq : time = 86400 * tm.date.number + 3600 * tm.hour + 60 * tm.min + tm.sec
  wday : tm.wday = tm.date.weekday
  yday : tm.yday = tm.date.yearDay

theorem Tm.Shows.unique {tm tm' : Tm} (h : tm.Shows time) (h' : tm'.Shows time) : tm = tm' := by
  obtain ⟨hvalid, hsec, hmin, hhour, htime, hwday, hyday⟩ := h
  obtain ⟨hvalid', hsec', hmin', hhour', htime', hwday', hyday'⟩ := h'
  have hdate : tm.date = tm'.date := hvalid.eq_of_number hvalid' (by omega)
  have hclock : tm.sec = tm'.sec ∧ tm.min = tm'.min ∧ tm.hour = tm'.hour := by
    rw [hdate] at htime
    omega
  rw [hdate, ← hwday'] at hwday
  rw [hdate, ← hyday'] at hyday
  rw [date, date, Date.mk.injEq] at hdate
  cases tm
  cases tm'
  simp only at hclock hdate hwday hyday
  simp [hclock, hdate, hwday, hyday]
  omega

theorem tmod_eq_zero (n b : Int) : n.tmod b = 0 ↔ n % b = 0 := by
  rw [← Int.dvd_iff_tmod_eq_zero, Int.dvd_iff_emod_eq_zero]

theorem IS_LEAP_eq (n : Int) : IS_LEAP n = isLeap (n + 1900) := by
  rw [Bool.eq_iff_iff, isLeap_iff]
  simp only [IS_LEAP, Bool.or_eq_true, Bool.and_eq_true, decide_eq_true_eq, ne_eq, tmod_eq_zero]
  omega

theorem daysInMonth_eq (leap : Bool) : daysInMonth leap = monthLengths leap := by
  cases leap <;> rfl

theorem julianDaysByMonth_eq (leap : Bool) (h : mon < 12) :
    (julianDaysByMonth leap).getD mon 0 = monthStart leap mon := by
  revert mon
  cases leap <;> decide

theorem lengthOfYear_eq (year : Int) :
    lengthOfYear (IS_LEAP year) = yearLength (isLeap (year + 1900)) := by
  rw [IS_LEAP_eq]
  rfl

theorem start_next (year : Int) : yearStart (year + 1 + 1900) =
    yearStart (year + 1900) + lengthOfYear (IS_LEAP year) := by
  rw [lengthOfYear_eq, ← yearStart_succ]
  congr 1
  omega

theorem lengthOfYear_range (leap : Bool) : 365 ≤ lengthOfYear leap ∧ lengthOfYear leap ≤ 366 := by
  cases leap <;> decide

theorem yearsUp_spec (n : Nat) (m year : Int) (h : 0 ≤ m)
    (hn : m < yearStart (year + n + 1900) - yearStart (year + 1900)) :
    ∃ m' year', yearsUp n m year = (m', year') ∧ 0 ≤ m' ∧ m' < lengthOfYear (IS_LEAP year') ∧
      yearStart (year' + 1900) + m' = yearStart (year + 1900) + m := by
  induction n generalizing m year with
  | zero =>
    rw [show year + ((0 : Nat) : Int) + 1900 = year + 1900 by omega] at hn
    omega
  | succ n ih =>
    have hnext := start_next year
    rw [yearsUp]
    split_ifs with hmore
    · rw [show year + ((n + 1 : Nat) : Int) + 1900 = year + 1 + n + 1900 by omega] at hn
      obtain ⟨m', year', hrun, hlow, hhigh, heq⟩ :=
        ih (m - lengthOfYear (IS_LEAP year)) (year + 1) (by omega) (by omega)
      exact ⟨m', year', hrun, hlow, hhigh, by omega⟩
    · exact ⟨m, year, rfl, h, by omega, rfl⟩

theorem yearsDown_spec (n : Nat) (m year : Int) (h : m < 0)
    (hn : yearStart (year + 1 - n + 1900) - yearStart (year + 1 + 1900) ≤ m) :
    ∃ m' year', yearsDown n m year = (m', year') ∧ -lengthOfYear (IS_LEAP year') ≤ m' ∧ m' < 0 ∧
      yearStart (year' + 1 + 1900) + m' = yearStart (year + 1 + 1900) + m := by
  induction n generalizing m year with
  | zero =>
    rw [show year + 1 - ((0 : Nat) : Int) + 1900 = year + 1 + 1900 by omega] at hn
    omega
  | succ n ih =>
    have hnext := start_next year
    rw [yearsDown]
    split_ifs with hmore
    · rw [show year + 1 - ((n + 1 : Nat) : Int) + 1900 = year - 1 + 1 - n + 1900 by omega] at hn
      rw [show year + 1900 = year - 1 + 1 + 1900 by omega] at hnext
      obtain ⟨m', year', hrun, hlow, hhigh, heq⟩ :=
        ih (m + lengthOfYear (IS_LEAP year)) (year - 1) (by omega) (by omega)
      exact ⟨m', year', hrun, hlow, hhigh, by omega⟩
    · exact ⟨m, year, rfl, by omega, h, rfl⟩

theorem monthsUp_spec (leap : Bool) (n : Nat) (m : Int) (mon : Nat) (h : 0 ≤ m)
    (hm : monthStart leap mon + m < yearLength leap)
    (hn : mon + n = 12) :
    ∃ m' mon', monthsUp leap n m mon = (m', mon') ∧ mon' < 12 ∧ 0 ≤ m' ∧
      m' < monthLength leap mon' ∧ monthStart leap mon' + m' = monthStart leap mon + m := by
  induction n generalizing m mon with
  | zero =>
    rw [show mon = 12 by omega, monthStart_year] at hm
    omega
  | succ n ih =>
    have hnext := monthStart_succ leap (show mon < 12 by omega)
    rw [monthsUp, daysInMonth_eq]
    change ∃ m' mon', (if m ≥ monthLength leap mon then
      monthsUp leap n (m - monthLength leap mon) (mon + 1) else (m, mon)) = (m', mon') ∧ _
    split_ifs with hmore
    · obtain ⟨m', mon', hrun, hmon, hlow, hhigh, heq⟩ :=
        ih (m - monthLength leap mon) (mon + 1) (by omega) (by omega) (by omega)
      exact ⟨m', mon', hrun, hmon, hlow, hhigh, by omega⟩
    · exact ⟨m, mon, rfl, by omega, h, by omega, rfl⟩

theorem monthsDown_spec (leap : Bool) (n : Nat) (m : Int) (mon : Nat) (h : m < 0)
    (hm : 0 ≤ monthStart leap (mon + 1) + m)
    (hn : n = mon + 1) (hmon : mon < 12) :
    ∃ m' mon', monthsDown leap n m mon = (m', mon') ∧ mon' < 12 ∧ -monthLength leap mon' ≤ m' ∧
      m' < 0 ∧ monthStart leap (mon' + 1) + m' = monthStart leap (mon + 1) + m := by
  induction n generalizing m mon with
  | zero => omega
  | succ n ih =>
    have hnext := monthStart_succ leap hmon
    rw [monthsDown, daysInMonth_eq]
    change ∃ m' mon', (if m < -monthLength leap mon then
      monthsDown leap n (m + monthLength leap mon) (mon - 1) else (m, mon)) = (m', mon') ∧ _
    split_ifs with hmore
    · have hpos : mon ≠ 0 := by
        rintro rfl
        have hstart : monthStart leap 0 = 0 := rfl
        omega
      have hback : mon - 1 + 1 = mon := by omega
      obtain ⟨m', mon', hrun, hmon', hlow, hhigh, heq⟩ := ih (m + monthLength leap mon)
        (mon - 1) (by omega) (by rw [hback]; omega) (by omega) (by omega)
      rw [hback] at heq
      exact ⟨m', mon', hrun, hmon', hlow, hhigh, by omega⟩
    · exact ⟨m, mon, rfl, hmon, by omega, h, rfl⟩

theorem yearAndMonth_spec (tday : Int) :
    ∃ year mon m, yearAndMonth tday = (year, mon, m) ∧
      (Date.mk (year + 1900) mon (m + 1)).Valid ∧
      (Date.mk (year + 1900) mon (m + 1)).number = tday := by
  have hdate (year m : Int) (mon : Nat) (hmon : mon < 12) (hlow : 0 ≤ m)
      (hhigh : m < monthLength (IS_LEAP year) mon)
      (heq : yearStart (year + 1900) + (monthStart (IS_LEAP year) mon + m) = tday) :
      (Date.mk (year + 1900) mon (m + 1)).Valid ∧
        (Date.mk (year + 1900) mon (m + 1)).number = tday := by
    rw [IS_LEAP_eq] at hhigh heq
    refine ⟨⟨hmon, ?_, ?_⟩, ?_⟩
    · change 1 ≤ m + 1
      omega
    · change m + 1 ≤ monthLength (isLeap (year + 1900)) mon
      omega
    · rw [← heq, Date.number, Date.yearDay]
      simp
  have hstart : ∃ m year, (if tday ≥ cheatDays then (tday - cheatDays, cheatYears)
      else (tday, 70)) = (m, year) ∧ yearStart (year + 1900) + m = tday := by
    split_ifs
    · refine ⟨_, _, rfl, ?_⟩
      have hcheat : yearStart (cheatYears + 1900) = cheatDays := by decide
      omega
    · refine ⟨_, _, rfl, ?_⟩
      have hzero : yearStart (70 + 1900) = 0 := by decide
      omega
  obtain ⟨m, year, hpair, htday⟩ := hstart
  rw [yearAndMonth, hpair]
  dsimp only
  have hcycle (cycles : Int) : yearStart (year + cycles * yearsInGregorianCycle + 1900) =
      yearStart (year + 1900) + cycles * daysInGregorianCycle := by
    have hshift := yearStart_cycle (year + 1900) cycles
    rw [yearsInGregorianCycle, daysInGregorianCycle]
    rw [show year + cycles * 400 + 1900 = year + 1900 + 400 * cycles by omega]
    omega
  split_ifs with hsign
  · have hfloor : floorDiv m daysInGregorianCycle = m / 146097 := rfl
    have hdays : daysInGregorianCycle = 146097 := rfl
    have hmoved := hcycle (m / 146097)
    have hspan := yearStart_cycle (year + m / 146097 * yearsInGregorianCycle + 1900) 1
    rw [hdays] at hmoved
    rw [hfloor, hdays]
    obtain ⟨m', year', hrun, hlow, hhigh, heq⟩ := yearsUp_spec 400
      (m - m / 146097 * 146097) (year + m / 146097 * yearsInGregorianCycle)
      (by omega) (by
        rw [show year + m / 146097 * yearsInGregorianCycle + ((400 : Nat) : Int) + 1900 =
          year + m / 146097 * yearsInGregorianCycle + 1900 + 400 * 1 by omega]
        omega)
    rw [hrun]
    dsimp only
    obtain ⟨d, mon, hmonths, hmon, hdlow, hdhigh, hdeq⟩ :=
      monthsUp_spec (IS_LEAP year') 12 m' 0 hlow (show monthStart (IS_LEAP year') 0 + m' < yearLength (IS_LEAP year') by
        rw [show monthStart (IS_LEAP year') 0 = 0 from rfl]
        exact (Int.zero_add m').symm ▸ hhigh) rfl
    rw [hmonths]
    refine ⟨year', mon, d, rfl, hdate year' d mon hmon hdlow hdhigh ?_⟩
    rw [hdeq, show monthStart (IS_LEAP year') 0 = 0 from rfl]
    omega
  · have hceil : ceilDiv m daysInGregorianCycle = -(-m / 146097) := rfl
    have hdays : daysInGregorianCycle = 146097 := rfl
    have hmoved := hcycle (-(-m / 146097) + 1)
    have hspan := yearStart_cycle
      (year + (-(-m / 146097) + 1) * yearsInGregorianCycle + 1900) (-2)
    rw [hdays] at hmoved
    rw [hceil, hdays]
    have hback : year - 1 + (-(-m / 146097) + 1) * yearsInGregorianCycle + 1 + 1900 =
        year + (-(-m / 146097) + 1) * yearsInGregorianCycle + 1900 := by omega
    obtain ⟨m', year', hrun, hlow, hhigh, heq⟩ := yearsDown_spec 800
      (m - (-(-m / 146097) + 1) * 146097)
      (year - 1 + (-(-m / 146097) + 1) * yearsInGregorianCycle) (by omega) (by
        rw [show year - 1 + (-(-m / 146097) + 1) * yearsInGregorianCycle + 1 -
            ((800 : Nat) : Int) + 1900 =
          year + (-(-m / 146097) + 1) * yearsInGregorianCycle + 1900 + 400 * -2 by omega, hback]
        omega)
    rw [hback] at heq
    rw [hrun]
    dsimp only
    have hlast : monthStart (IS_LEAP year') (11 + 1) = lengthOfYear (IS_LEAP year') :=
      monthStart_year (IS_LEAP year')
    obtain ⟨d, mon, hmonths, hmon, hdlow, hdhigh, hdeq⟩ := monthsDown_spec (IS_LEAP year') 12 m' 11
      hhigh (by omega) rfl (by decide)
    have hsucc := monthStart_succ (IS_LEAP year') hmon
    have hnext := start_next year'
    have hget : (daysInMonth (IS_LEAP year')).getD mon 0 = monthLength (IS_LEAP year') mon := by
      rw [daysInMonth_eq, monthLength]
    rw [hmonths]
    dsimp only
    rw [hget]
    refine ⟨year', mon, _, rfl, hdate year' _ mon hmon (by omega) (by omega) (by omega)⟩

theorem whole_spec (time : Int) (hb : 0 < b) :
    time = b * whole time b + time.tmod b ∧
      (0 ≤ time → 0 ≤ time.tmod b ∧ time.tmod b < b ∧ 0 ≤ whole time b) ∧
      (time < 0 → -b < time.tmod b ∧ time.tmod b ≤ 0 ∧ whole time b ≤ 0) := by
  rw [whole, floorDiv, ceilDiv]
  by_cases hsign : 0 ≤ time
  · rw [if_pos hsign, Int.tmod_eq_emod_of_nonneg hsign]
    have hsplit := Int.mul_ediv_add_emod time b
    have hlow := Int.emod_nonneg time (show b ≠ 0 by omega)
    have hhigh := Int.emod_lt_of_pos time hb
    have hquotient := Int.ediv_nonneg hsign (Int.le_of_lt hb)
    exact ⟨by omega, fun _ => ⟨hlow, hhigh, hquotient⟩, fun hneg => by omega⟩
  · have hneg : 0 ≤ -time := by omega
    have htmod : time.tmod b = -(-time % b) := by
      rw [← Int.tmod_eq_emod_of_nonneg hneg, Int.neg_tmod, Int.neg_neg]
    rw [if_neg hsign, htmod]
    have hsplit := Int.mul_ediv_add_emod (-time) b
    have hlow := Int.emod_nonneg (-time) (show b ≠ 0 by omega)
    have hhigh := Int.emod_lt_of_pos (-time) hb
    have hquotient := Int.ediv_nonneg hneg (Int.le_of_lt hb)
    refine ⟨?_, fun hpos => absurd hpos hsign, fun _ => ⟨by omega, by omega, by omega⟩⟩
    rw [Int.mul_neg]
    omega

theorem wrap_cases (a b m : Int) : ∃ a' b', wrap a b m = (a', b') ∧
    (a < 0 ∧ a' = a + m ∧ b' = b - 1 ∨ 0 ≤ a ∧ a' = a ∧ b' = b) := by
  by_cases h : a < 0
  · exact ⟨_, _, if_pos h, .inl ⟨h, rfl, rfl⟩⟩
  · exact ⟨_, _, if_neg h, .inr ⟨Int.not_lt.1 h, rfl, rfl⟩⟩

theorem gmtime64_shows (time : Int) : (gmtime64 time).Shows time := by
  obtain ⟨hsec, hsecPos, hsecNeg⟩ := whole_spec time (show (0 : Int) < 60 by decide)
  obtain ⟨hmin, hminPos, hminNeg⟩ :=
    whole_spec (whole time 60) (show (0 : Int) < 60 by decide)
  obtain ⟨hhour, hhourPos, hhourNeg⟩ :=
    whole_spec (whole (whole time 60) 60) (show (0 : Int) < 24 by decide)
  rw [gmtime64]
  dsimp only
  generalize time.tmod 60 = sec at *
  generalize (whole time 60).tmod 60 = min at *
  generalize (whole (whole time 60) 60).tmod 24 = hour at *
  generalize whole (whole (whole time 60) 60) 24 = tday at *
  obtain ⟨sec', min', h1, hsplit⟩ := wrap_cases sec min 60
  obtain ⟨min'', hour', h2, hsplit'⟩ := wrap_cases min' hour 60
  obtain ⟨hour'', tday', h3, hsplit''⟩ := wrap_cases hour' tday 24
  obtain ⟨hrange, hrange', hrange'', htime⟩ : (0 ≤ sec' ∧ sec' < 60) ∧
      (0 ≤ min'' ∧ min'' < 60) ∧ (0 ≤ hour'' ∧ hour'' < 24) ∧
      time = 86400 * tday' + 3600 * hour'' + 60 * min'' + sec' := by omega
  rw [h1]
  dsimp only
  rw [h2]
  dsimp only
  rw [h3]
  dsimp only
  obtain ⟨year, mon, m, hdate, hvalid, hnumber⟩ := yearAndMonth_spec tday'
  rw [hdate]
  dsimp only
  refine ⟨hvalid, hrange, hrange', hrange'', ?_, ?_, ?_⟩
  · rw [← hnumber] at htime
    exact htime
  · rw [Tm.date, Date.weekday]
    dsimp only
    rw [hnumber]
    by_cases hsign : 0 ≤ tday' + 4
    · rw [Int.tmod_eq_emod_of_nonneg hsign]
      split_ifs <;> omega
    · have htmod : (tday' + 4).tmod 7 = -(-(tday' + 4) % 7) := by
        rw [← Int.tmod_eq_emod_of_nonneg (by omega), Int.neg_tmod, Int.neg_neg]
      rw [htmod]
      split_ifs <;> omega
  · rw [Tm.date, Date.yearDay]
    have hmon : mon < 12 := hvalid.1
    dsimp only
    rw [julianDaysByMonth_eq _ hmon, IS_LEAP_eq]
    omega

theorem daysSince_spec (h : year ≤ tmYear) (hn : tmYear - year ≤ n)
    (hdays : days = yearStart (year + 1900)) (hlow : -(2 ^ 31) ≤ days) :
    daysSince tmYear n year days =
      if yearStart (tmYear + 1900) < 2 ^ 31 ∨ year = tmYear then
        some (yearStart (tmYear + 1900)) else none := by
  induction n generalizing year days with
  | zero =>
    obtain rfl : year = tmYear := by omega
    rw [daysSince, hdays, if_pos (.inr rfl)]
  | succ n ih =>
    rw [daysSince]
    by_cases hmore : year < tmYear
    · have hnext := start_next year
      have hlength := lengthOfYear_range (IS_LEAP year)
      have hmono : yearStart (year + 1 + 1900) ≤ yearStart (tmYear + 1900) := by
        have hle := yearStart_mono (show year + 1900 < tmYear + 1900 by omega)
        rwa [show year + 1900 + 1 = year + 1 + 1900 by omega] at hle
      rw [if_pos hmore, intAdd]
      by_cases hfit : days + lengthOfYear (IS_LEAP year) < 2 ^ 31
      · rw [if_pos ⟨by omega, hfit⟩, Option.bind_some,
          ih (by omega) (by omega) (by omega) (by omega)]
        congr 1
        rw [eq_iff_iff]
        constructor
        · rintro (hlt | heq)
          · exact .inl hlt
          · subst heq
            exact .inl (by omega)
        · rintro (hlt | heq)
          · exact .inl hlt
          · omega
      · rw [if_neg (by omega), if_neg (by omega)]
        rfl
    · obtain rfl : year = tmYear := by omega
      rw [if_neg hmore, hdays, if_pos (.inr rfl)]

theorem daysUntil_spec (h : tmYear ≤ year) (hn : year - tmYear + 1 ≤ n)
    (hdays : days = yearStart (year + 1 + 1900)) (hhigh : days < 2 ^ 31) :
    daysUntil tmYear n year days =
      if -(2 ^ 31) ≤ yearStart (tmYear + 1900) then some (yearStart (tmYear + 1900)) else none := by
  induction n generalizing year days with
  | zero => omega
  | succ n ih =>
    have hnext := start_next year
    have hlength := lengthOfYear_range (IS_LEAP year)
    have hmono : yearStart (tmYear + 1900) ≤ yearStart (year + 1900) := by
      rcases Int.lt_or_eq_of_le h with hlt | rfl
      · have hle := yearStart_mono (show tmYear + 1900 < year + 1900 by omega)
        have hthis := start_next tmYear
        have hlength' := lengthOfYear_range (IS_LEAP tmYear)
        rw [show tmYear + 1900 + 1 = tmYear + 1 + 1900 by omega] at hle
        omega
      · exact Int.le_refl _
    rw [daysUntil, intAdd]
    by_cases hfit : -(2 ^ 31) ≤ days + -lengthOfYear (IS_LEAP year)
    · rw [if_pos ⟨hfit, by omega⟩, Option.bind_some]
      by_cases hmore : year - 1 ≥ tmYear
      · rw [if_pos hmore, ih (by omega) (by omega) (by
          rw [show year - 1 + 1 + 1900 = year + 1900 by omega]
          omega) (by omega)]
      · obtain rfl : year = tmYear := by omega
        rw [if_neg hmore, if_pos (by omega)]
        congr 1
        omega
    · rw [if_neg (by omega), if_neg (by omega)]
      rfl

theorem timegm64_shows {tm : Tm} (h : tm.Shows time) :
    timegm64 tm = if -(2 ^ 31) ≤ yearStart tm.date.year ∧ tm.date.number < 2 ^ 31
      then some time else none := by
  obtain ⟨hvalid, -, -, -, htime, -, -⟩ := h
  have hrange := hvalid.number_range
  have hyear : tm.date.year = tm.year + 1900 := rfl
  have hstart : yearStart (70 + 1900) = 0 := by decide
  have hdays : daysOfYears tm.year =
      if -(2 ^ 31) ≤ yearStart (tm.year + 1900) ∧ yearStart (tm.year + 1900) < 2 ^ 31
        then some (yearStart (tm.year + 1900)) else none := by
    rw [daysOfYears]
    by_cases hafter : tm.year > 70
    · have hmono := yearStart_mono (show 70 + 1900 < tm.year + 1900 by omega)
      have hnext : yearStart (70 + 1900) < yearStart (70 + 1900 + 1) := by decide
      rw [if_pos hafter, daysSince_spec (by omega) (by omega) hstart.symm (by decide)]
      congr 1
      rw [eq_iff_iff]
      omega
    · rw [if_neg hafter]
      by_cases hbefore : tm.year < 70
      · have hmono := yearStart_mono (show tm.year + 1900 < 70 + 1900 by omega)
        have hthis := start_next tm.year
        have hlength := lengthOfYear_range (IS_LEAP tm.year)
        rw [show tm.year + 1900 + 1 = tm.year + 1 + 1900 by omega] at hmono
        rw [if_pos hbefore, daysUntil_spec (by omega) (by omega) hstart.symm (by decide)]
        congr 1
        rw [eq_iff_iff]
        omega
      · rw [if_neg hbefore, show tm.year = 70 by omega, hstart]
        rfl
  have hyearDay := hvalid.yearDay_range
  have hmonth := monthStart_range (isLeap tm.date.year) hvalid.1
  have hday : tm.date.number = yearStart (tm.year + 1900) +
      monthStart (isLeap (tm.year + 1900)) tm.mon + (tm.mday - 1) := by
    rw [Date.number, Date.yearDay, Int.add_assoc]
    rfl
  have hlow : 1 ≤ tm.mday := hvalid.2.1
  have hmonthLow : 0 ≤ monthStart (isLeap (tm.year + 1900)) tm.mon := hmonth.1
  have hmon : tm.mon < 12 := hvalid.1
  rw [timegm64, hdays, julianDaysByMonth_eq _ hmon, IS_LEAP_eq, hyear]
  by_cases hfits : -(2 ^ 31) ≤ yearStart (tm.year + 1900) ∧ tm.date.number < 2 ^ 31
  · rw [if_pos ⟨hfits.1, by omega⟩, if_pos hfits]
    simp only [Option.bind_eq_bind, Option.bind_some, intAdd]
    rw [if_pos ⟨by omega, by omega⟩, Option.bind_some, if_pos ⟨by omega, by omega⟩,
      Option.bind_some, htime, hday]
    congr 1
    omega
  · rw [if_neg hfits]
    by_cases hstarts : -(2 ^ 31) ≤ yearStart (tm.year + 1900) ∧ yearStart (tm.year + 1900) < 2 ^ 31
    · rw [if_pos hstarts]
      simp only [Option.bind_eq_bind, Option.bind_some, intAdd]
      by_cases hmonths : yearStart (tm.year + 1900) +
          monthStart (isLeap (tm.year + 1900)) tm.mon < 2 ^ 31
      · rw [if_pos ⟨by omega, hmonths⟩, Option.bind_some, if_neg (by omega)]
        rfl
      · rw [if_neg (by omega)]
        rfl
    · rw [if_neg hstarts]
      rfl

end XPerl.Time64
