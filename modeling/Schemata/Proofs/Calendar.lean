import Mathlib.Tactic.IntervalCases
import Mathlib.Tactic.SplitIfs
import Schemata.Calendar.Date
/-!
# Calendar — days and their numbers

Later days have greater numbers (`Date.IsDay.toDays_lt`), and every number is the number of a day
(`Date.toDays_ofDays`, `Date.isDay_ofDays`); so the days of numbers come in the order of the numbers
(`Date.ofDays_before`).

Both directions count in years that start in March.  There every month but the last follows one rule
(`Date.monthStart_succ`), and only the last one, February, knows about leap years.
-/
namespace Schemata
namespace Date

/-- A day of the calendar, whatever its year. -/
structure IsDay (d : Date) : Prop where
  month_pos : 1 ≤ d.month
  month_le : d.month ≤ 12
  day_pos : 1 ≤ d.day
  day_le : d.day ≤ daysInMonth d.year d.month

theorem isValid_iff (d : Date) :
    d.isValid = true ↔ firstYear ≤ d.year ∧ d.year ≤ lastYear ∧ d.IsDay := by
  simp only [isValid, Bool.and_eq_true, decide_eq_true_eq]
  constructor
  · rintro ⟨⟨⟨⟨⟨hfirst, hlast⟩, hmonth⟩, hmonth'⟩, hday⟩, hday'⟩
    exact ⟨hfirst, hlast, hmonth, hmonth', hday, hday'⟩
  · rintro ⟨hfirst, hlast, hmonth, hmonth', hday, hday'⟩
    exact ⟨⟨⟨⟨⟨hfirst, hlast⟩, hmonth⟩, hmonth'⟩, hday⟩, hday'⟩

theorem isLeapYear_iff (year : Int) :
    isLeapYear year = true ↔ year % 4 = 0 ∧ (year % 100 ≠ 0 ∨ year % 400 = 0) := by
  simp [isLeapYear]

theorem daysInMonth_february (year : Int) :
    daysInMonth year 2 = if isLeapYear year then 29 else 28 := rfl

/-- One day comes before another. -/
def Before (d e : Date) : Prop :=
  d.year < e.year ∨
    d.year = e.year ∧ (d.month < e.month ∨ d.month = e.month ∧ d.day < e.day)

theorem before_trichotomy (d e : Date) : d.Before e ∨ d = e ∨ e.Before d := by
  obtain ⟨year, month, day⟩ := d
  obtain ⟨year', month', day'⟩ := e
  simp only [Before, Date.mk.injEq]
  omega

/-! ## Years from March -/

/-- The days before a year that starts in March. -/
def yearStart (year : Int) : Int := 365 * year + year / 4 - year / 100 + year / 400

/-- The days before a month in a year from March; March is month 0. -/
def monthStart (month : Nat) : Int := (153 * month + 2) / 5

/-- The year from March that a day belongs to. -/
def marchYear (d : Date) : Int := if d.month ≤ 2 then d.year - 1 else d.year

def marchMonth (d : Date) : Nat := (d.month + 9) % 12

theorem toDays_eq (d : Date) :
    d.toDays = yearStart d.marchYear + monthStart d.marchMonth + d.day - 719469 := by
  unfold toDays marchYear marchMonth yearStart monthStart
  dsimp only
  generalize (if d.month ≤ 2 then d.year - 1 else d.year) = year
  omega

theorem yearStart_lt {year year' : Int} (h : year < year') :
    yearStart (year + 1) ≤ yearStart year' := by
  unfold yearStart
  omega

theorem monthStart_lt {month month' : Nat} (h : month < month') :
    monthStart (month + 1) ≤ monthStart month' := by
  unfold monthStart
  omega

/-- The months from March to January follow one rule. -/
theorem monthStart_succ (year : Int) {month : Nat} (hpos : 1 ≤ month) (hle : month ≤ 12)
    (h : month ≠ 2) :
    monthStart ((month + 9) % 12) + daysInMonth year month = monthStart ((month + 9) % 12 + 1) := by
  interval_cases month <;> first | rfl | exact absurd rfl h

/-- The last month of a year from March is as long as the year says. -/
theorem monthStart_february (year : Int) :
    monthStart 11 + daysInMonth year 2 = yearStart year - yearStart (year - 1) := by
  have hleap := isLeapYear_iff year
  rw [daysInMonth_february]
  unfold monthStart yearStart
  split_ifs with hl
  · rw [hl, eq_self, true_iff] at hleap
    omega
  · have hleap := mt hleap.2 hl
    omega

namespace IsDay

variable {d e : Date}

theorem day_lt (h : d.IsDay) : d.day < 32 := by
  have := h.day_le
  unfold daysInMonth at this
  split_ifs at this <;> omega

theorem marchMonth_le (_ : d.IsDay) : d.marchMonth ≤ 11 := by
  unfold marchMonth
  omega

theorem month_eq_two (h : d.IsDay) (hmonth : d.marchMonth = 11) : d.month = 2 := by
  have := h.month_pos
  have := h.month_le
  unfold marchMonth at hmonth
  omega

/-- A day lies in its month. -/
theorem lt_monthStart (h : d.IsDay) (hmonth : d.marchMonth < 11) :
    monthStart d.marchMonth + d.day ≤ monthStart (d.marchMonth + 1) := by
  have hne : d.month ≠ 2 := fun he => by simp [marchMonth, he] at hmonth
  have hrule := monthStart_succ d.year h.month_pos h.month_le hne
  have := h.day_le
  unfold marchMonth
  omega

/-- A day lies in its year from March. -/
theorem lt_yearStart (h : d.IsDay) :
    yearStart d.marchYear + monthStart d.marchMonth + d.day ≤ yearStart (d.marchYear + 1) := by
  rcases Nat.lt_or_ge d.marchMonth 11 with hmonth | hmonth
  · have hday := h.lt_monthStart hmonth
    have hlast := monthStart_lt (show d.marchMonth < 11 + 1 by omega)
    have hyear : yearStart d.marchYear + 365 ≤ yearStart (d.marchYear + 1) := by
      unfold yearStart
      omega
    have : monthStart (d.marchMonth + 1) ≤ 337 := by
      unfold monthStart
      omega
    omega
  · have hlast : d.marchMonth = 11 := Nat.le_antisymm h.marchMonth_le hmonth
    have htwo := h.month_eq_two hlast
    have hday := h.day_le
    have hyear : d.marchYear = d.year - 1 := by
      rw [marchYear, if_pos (by omega)]
    have hrule := monthStart_february d.year
    rw [htwo] at hday
    rw [hlast, hyear, Int.sub_add_cancel]
    omega

/-- **Later days have greater numbers.** -/
theorem toDays_lt (hd : d.IsDay) (he : e.IsDay) (h : d.Before e) : d.toDays < e.toDays := by
  have hday := he.day_pos
  have hstart : 0 ≤ monthStart e.marchMonth := by
    unfold monthStart
    omega
  rw [toDays_eq, toDays_eq]
  -- The order is the same when years start in March.
  have horder : d.marchYear < e.marchYear ∨ d.marchYear = e.marchYear ∧
      (d.marchMonth < e.marchMonth ∨ d.marchMonth = e.marchMonth ∧ d.day < e.day) := by
    have := hd.month_pos
    have := hd.month_le
    have := he.month_pos
    have := he.month_le
    unfold Before at h
    unfold marchYear marchMonth
    split_ifs <;> omega
  rcases horder with hyear | ⟨hyear, hmonth | ⟨hmonth, hdays⟩⟩
  · have hlast := hd.lt_yearStart
    have hnext := yearStart_lt hyear
    omega
  · have hlast := hd.lt_monthStart (Nat.lt_of_lt_of_le hmonth he.marchMonth_le)
    have hnext := monthStart_lt hmonth
    rw [hyear]
    omega
  · rw [hyear, hmonth]
    omega

end IsDay

/-! ## The day of a number -/

/-- **A place in an era** of four hundred years: centuries, spans of four years, years and days.  Only
the last year of a span has a day more, and of the last spans of the centuries only the last. -/
structure InEra (n century span year day : Int) : Prop where
  eq : n = 36524 * century + 1461 * span + 365 * year + day
  century_le : 0 ≤ century ∧ century ≤ 3
  span_le : 0 ≤ span ∧ span ≤ 24
  year_le : 0 ≤ year ∧ year ≤ 3
  day_le : 0 ≤ day ∧ day ≤ 365
  leap : day = 365 → year = 3 ∧ (span = 24 → century = 3)

theorem exists_inEra {n : Int} (hpos : 0 ≤ n) (hlt : n < 146097) :
    ∃ century span year day, InEra n century span year day := by
  obtain ⟨century, hcentury⟩ : ∃ c : Int, c = min (n / 36524) 3 := ⟨_, rfl⟩
  obtain ⟨rest, hrest⟩ : ∃ r : Int, r = n - 36524 * century := ⟨_, rfl⟩
  have hbounds : 0 ≤ rest ∧ rest ≤ 36524 ∧ (rest = 36524 → century = 3) := by omega
  obtain ⟨span, hspan⟩ : ∃ q : Int, q = rest / 1461 := ⟨_, rfl⟩
  obtain ⟨inSpan, hinSpan⟩ : ∃ r : Int, r = rest - 1461 * span := ⟨_, rfl⟩
  obtain ⟨year, hyear⟩ : ∃ y : Int, y = min (inSpan / 365) 3 := ⟨_, rfl⟩
  refine ⟨century, span, year, inSpan - 365 * year, ⟨?_, ?_, ?_, ?_, ?_, ?_⟩⟩ <;> omega

namespace InEra

variable {n century span year day : Int}

/-- The days beyond `1460` in each span count for a day too few at most, and only late in a year. -/
theorem div_span (h : InEra n century span year day) :
    ∃ extra : Int, n / 1460 = 25 * century + span + extra ∧ 0 ≤ day - extra ∧
      day - extra < 365 := by
  obtain ⟨rfl, hcentury, hspan, hyear, hday, hleap⟩ := h
  by_cases hextra : 1460 ≤ 24 * century + span + 365 * year + day
  · exact ⟨1, by omega, by omega, by omega⟩
  · exact ⟨0, by omega, by omega, by omega⟩

/-- The last day of the era is taken for a fifth century, and taken back. -/
theorem div_century (h : InEra n century span year day) : n / 36524 - n / 146096 = century := by
  obtain ⟨rfl, hcentury, hspan, hyear, hday, hleap⟩ := h
  obtain ⟨rest, hrest⟩ : ∃ rest : Int, rest = 1461 * span + 365 * year + day := ⟨_, rfl⟩
  have hlast : rest = 36524 ∧ century = 3 ∨ 0 ≤ rest ∧ rest < 36524 := by omega
  have hsum : 36524 * century + 1461 * span + 365 * year + day = 36524 * century + rest := by omega
  rw [hsum]
  clear hsum hrest hleap
  rcases hlast with ⟨rfl, rfl⟩ | hlast
  · rfl
  · have hcenturies : (36524 * century + rest) / 36524 = century := by omega
    have hera : (36524 * century + rest) / 146096 = 0 := by omega
    omega

/-- **The year of an era** is found by one division. -/
theorem yearOfEra (h : InEra n century span year day) :
    (n - n / 1460 + n / 36524 - n / 146096) / 365 = 100 * century + 4 * span + year := by
  obtain ⟨extra, hspan, hpos, hlt⟩ := h.div_span
  have hcentury := h.div_century
  have heq := h.eq
  have hsum : n - n / 1460 + n / 36524 - n / 146096 =
      365 * (100 * century + 4 * span + year) + (day - extra) := by omega
  rw [hsum]
  omega

theorem year_div_four (h : InEra n century span year day) :
    (100 * century + 4 * span + year) / 4 = 25 * century + span := by
  have hyear := h.year_le
  omega

theorem year_div_hundred (h : InEra n century span year day) :
    (100 * century + 4 * span + year) / 100 = century := by
  have hspan := h.span_le
  have hyear := h.year_le
  omega

/-- The day of its year is what is left. -/
theorem dayOfYear (h : InEra n century span year day) :
    n - (365 * (100 * century + 4 * span + year) + (100 * century + 4 * span + year) / 4 -
      (100 * century + 4 * span + year) / 100) = day := by
  have heq := h.eq
  rw [h.year_div_four, h.year_div_hundred]
  omega

theorem yearStart_eq (h : InEra n century span year day) (era : Int) :
    yearStart (400 * era + (100 * century + 4 * span + year)) = 146097 * era + n - day := by
  have hcentury := h.century_le
  have hfour := h.year_div_four
  have hhundred := h.year_div_hundred
  have hdayOfYear := h.dayOfYear
  generalize 100 * century + 4 * span + year = yearOfEra at *
  unfold yearStart
  omega

/-- The last day of a longer year is the only one that a shorter year does not have. -/
theorem lt_yearStart (h : InEra n century span year day) (era : Int) :
    day < yearStart (400 * era + (100 * century + 4 * span + year) + 1) -
      yearStart (400 * era + (100 * century + 4 * span + year)) := by
  obtain ⟨-, hcentury, hspan, hyear, hday, hleap⟩ := h
  unfold yearStart
  omega

end InEra

/-- The day of a month in a year from March. -/
def ofMarch (year : Int) (month day : Nat) : Date :=
  if month < 10 then ⟨year, month + 3, day⟩ else ⟨year + 1, month - 9, day⟩

theorem marchYear_ofMarch (year : Int) {month : Nat} (h : month ≤ 11) (day : Nat) :
    (ofMarch year month day).marchYear = year := by
  unfold ofMarch marchYear
  split_ifs with hten htwo htwo <;> dsimp only at htwo ⊢ <;> omega

theorem marchMonth_ofMarch (year : Int) {month : Nat} (h : month ≤ 11) (day : Nat) :
    (ofMarch year month day).marchMonth = month := by
  unfold ofMarch marchMonth
  split_ifs <;> dsimp only <;> omega

theorem day_ofMarch (year : Int) (month day : Nat) : (ofMarch year month day).day = day := by
  unfold ofMarch
  split_ifs <;> rfl

/-- What lies in its month and in its year from March is a day. -/
theorem isDay_ofMarch {year : Int} {month day : Nat} (hle : month ≤ 11) (hpos : 1 ≤ day)
    (hmonth : month < 11 → monthStart month + day ≤ monthStart (month + 1))
    (hyear : yearStart year + monthStart month + day ≤ yearStart (year + 1)) :
    (ofMarch year month day).IsDay := by
  have hmarch := marchMonth_ofMarch year hle day
  have hbounds : 1 ≤ (ofMarch year month day).month ∧ (ofMarch year month day).month ≤ 12 := by
    unfold ofMarch
    split_ifs <;> dsimp only <;> omega
  have hday := day_ofMarch year month day
  refine ⟨hbounds.1, hbounds.2, by rw [hday]; exact hpos, ?_⟩
  by_cases htwo : (ofMarch year month day).month = 2
  · have hlast : month = 11 := by rw [← hmarch, marchMonth, htwo]
    subst hlast
    have hrule := monthStart_february (year + 1)
    rw [Int.add_sub_cancel] at hrule
    have hdate : ofMarch year 11 day = ⟨year + 1, 2, day⟩ := rfl
    rw [hdate]
    dsimp only
    omega
  · have hrule := monthStart_succ (ofMarch year month day).year hbounds.1 hbounds.2 htwo
    have hlt : month < 11 := by
      rw [← hmarch, marchMonth]
      omega
    have hin := hmonth hlt
    rw [← marchMonth, hmarch] at hrule
    rw [hday]
    omega

/-- **The day of a number**, in a month and in a year from March. -/
theorem exists_ofDays (n : Int) :
    ∃ (year : Int) (month day : Nat), month ≤ 11 ∧ 1 ≤ day ∧ ofDays n = ofMarch year month day ∧
      n = yearStart year + monthStart month + day - 719469 ∧
      (month < 11 → monthStart month + day ≤ monthStart (month + 1)) ∧
      yearStart year + monthStart month + day ≤ yearStart (year + 1) := by
  obtain ⟨era, hera⟩ : ∃ era : Int, era = (n + 719468) / 146097 := ⟨_, rfl⟩
  obtain ⟨place, hplace⟩ : ∃ place : Int, place = (n + 719468) % 146097 := ⟨_, rfl⟩
  obtain ⟨century, span, yearOfSpan, dayOfYear, h⟩ :=
    exists_inEra (n := place) (by omega) (by omega)
  have hday := h.day_le
  have hstart := h.yearStart_eq era
  have hlast := h.lt_yearStart era
  have hyearOfEra := h.yearOfEra
  have hdayOfYear := h.dayOfYear
  generalize 100 * century + 4 * span + yearOfSpan = year at *
  obtain ⟨month, hmonth⟩ : ∃ month : Nat, (month : Int) = (5 * dayOfYear + 2) / 153 :=
    ⟨((5 * dayOfYear + 2) / 153).toNat, by omega⟩
  obtain ⟨day, hdayOfMonth⟩ : ∃ day : Nat, (day : Int) = dayOfYear - monthStart month + 1 :=
    ⟨(dayOfYear - monthStart month + 1).toNat, by unfold monthStart; omega⟩
  refine ⟨400 * era + year, month, day, by omega, ?_, ?_, ?_, ?_, ?_⟩
  · unfold monthStart at hdayOfMonth
    omega
  · unfold ofDays
    dsimp only
    rw [← hera, ← hplace, hyearOfEra, hdayOfYear, ← hmonth]
    unfold monthStart at hdayOfMonth
    unfold ofMarch
    split_ifs <;> rw [Date.mk.injEq] <;> omega
  · omega
  · intro hlt
    unfold monthStart at hdayOfMonth ⊢
    omega
  · omega

theorem isDay_ofDays (n : Int) : (ofDays n).IsDay := by
  obtain ⟨year, month, day, hle, hpos, heq, -, hmonth, hyear⟩ := exists_ofDays n
  rw [heq]
  exact isDay_ofMarch hle hpos hmonth hyear

/-- **A number is the number of its day.** -/
theorem toDays_ofDays (n : Int) : (ofDays n).toDays = n := by
  obtain ⟨year, month, day, hle, -, heq, hn, -, -⟩ := exists_ofDays n
  rw [heq, toDays_eq, marchYear_ofMarch year hle, marchMonth_ofMarch year hle, day_ofMarch, ← hn]

/-- **The days of numbers come in the order of the numbers.** -/
theorem ofDays_before {n n' : Int} (h : n < n') : (ofDays n).Before (ofDays n') := by
  rcases before_trichotomy (ofDays n) (ofDays n') with hbefore | heq | hbefore
  · exact hbefore
  · have hnumber := toDays_ofDays n
    rw [heq, toDays_ofDays] at hnumber
    exact absurd hnumber.symm (Int.ne_of_lt h)
  · have hlt := (isDay_ofDays n').toDays_lt (isDay_ofDays n) hbefore
    rw [toDays_ofDays, toDays_ofDays] at hlt
    exact absurd hlt (Int.not_lt.2 (Int.le_of_lt h))

end Date
end Schemata
