import Mathlib.Logic.Function.Iterate
import Mathlib.Tactic.Common

/-
The proleptic Gregorian calendar.

A date is a year, a month and a day that exist, and every date has a next one.  Dates
are numbered by a closed formula that grows by one from a date to the next, so a count
of days between two dates is the difference of their numbers.
-/

namespace Gregorian

def isLeap (year : Int) : Bool :=
  year % 4 = 0 ∧ (year % 100 ≠ 0 ∨ year % 400 = 0)

def daysInMonth (leap : Bool) : Nat → Nat
  | 2 => if leap then 29 else 28
  | 4 | 6 | 9 | 11 => 30
  | _ => 31

theorem daysInMonth_pos (leap : Bool) (month : Nat) : 1 ≤ daysInMonth leap month := by
  unfold daysInMonth
  split
  · cases leap <;> decide
  all_goals decide

theorem daysInMonth_le (leap : Bool) (month : Nat) : daysInMonth leap month ≤ 31 := by
  unfold daysInMonth
  split
  · cases leap <;> decide
  all_goals decide

@[ext]
structure Date where
  year : Int
  month : Nat
  day : Nat
  month_valid : 1 ≤ month ∧ month ≤ 12
  day_valid : 1 ≤ day ∧ day ≤ daysInMonth (isLeap year) month

namespace Date

def epoch : Date where
  year := 1970
  month := 1
  day := 1
  month_valid := by decide
  day_valid := by decide

def next (date : Date) : Date :=
  if inMonth : date.day < daysInMonth (isLeap date.year) date.month then
    { date with
      day := date.day + 1
      day_valid := ⟨Nat.le_add_left 1 date.day, inMonth⟩ }
  else if inYear : date.month < 12 then
    { year := date.year
      month := date.month + 1
      day := 1
      month_valid := ⟨Nat.le_add_left 1 date.month, inYear⟩
      day_valid := ⟨Nat.le_refl 1, daysInMonth_pos _ _⟩ }
  else
    { year := date.year + 1
      month := 1
      day := 1
      month_valid := ⟨Nat.le_refl 1, by decide⟩
      day_valid := ⟨Nat.le_refl 1, daysInMonth_pos _ _⟩ }

/-- A date is so many days after another; before it, when the count is negative. -/
def DaysAfter (days : Int) (start date : Date) : Prop :=
  next^[days.toNat] start = next^[(-days).toNat] date

/-- A date comes before another on the calendar. -/
def Before (date later : Date) : Prop :=
  date.year < later.year ∨
    date.year = later.year ∧
      (date.month < later.month ∨ date.month = later.month ∧ date.day < later.day)

end Date

/-- A time of day on a date, in whole seconds. -/
@[ext]
structure Instant where
  date : Date
  hour : Nat
  minute : Nat
  second : Nat
  hour_valid : hour < 24
  minute_valid : minute < 60
  second_valid : second < 60

/-- The instant so many seconds after the start of 1970. -/
def Instant.IsAt (secs : Int) (instant : Instant) : Prop :=
  Date.DaysAfter (secs / 86400) Date.epoch instant.date ∧
    secs % 86400 = 3600 * instant.hour + 60 * instant.minute + instant.second

/-! ### Whole years and months -/

/-- The days from the first of January of year 1 to that of the year. -/
def daysBeforeYear (year : Int) : Int :=
  365 * (year - 1) + (year - 1) / 4 - (year - 1) / 100 + (year - 1) / 400

def daysBeforeMonth (leap : Bool) : Nat → Nat
  | 0 | 1 => 0
  | month + 2 => daysBeforeMonth leap (month + 1) + daysInMonth leap (month + 1)

theorem toNat_isLeap (year : Int) : (isLeap year).toNat =
    if year % 4 = 0 ∧ (year % 100 ≠ 0 ∨ year % 400 = 0) then 1 else 0 := by
  unfold isLeap
  split <;> simp_all

theorem daysBeforeYear_succ (year : Int) :
    daysBeforeYear (year + 1) = daysBeforeYear year + 365 + (isLeap year).toNat := by
  rw [toNat_isLeap]
  unfold daysBeforeYear
  split <;> omega

/-- The calendar repeats itself every 400 years. -/
theorem daysBeforeYear_cycle (year cycles : Int) :
    daysBeforeYear (year + 400 * cycles) = daysBeforeYear year + 146097 * cycles := by
  have fours : (year + 400 * cycles - 1) / 4 = (year - 1) / 4 + 100 * cycles := by omega
  have hundreds : (year + 400 * cycles - 1) / 100 = (year - 1) / 100 + 4 * cycles := by omega
  have all : (year + 400 * cycles - 1) / 400 = (year - 1) / 400 + cycles := by omega
  unfold daysBeforeYear
  rw [fours, hundreds, all]
  omega

theorem daysBeforeMonth_succ (leap : Bool) {month : Nat} (first : 1 ≤ month) :
    daysBeforeMonth leap (month + 1) = daysBeforeMonth leap month + daysInMonth leap month := by
  obtain ⟨m, rfl⟩ := Nat.exists_eq_add_of_le' first
  rfl

theorem daysBeforeMonth_mono (leap : Bool) {month later : Nat} (first : 1 ≤ month)
    (order : month ≤ later) : daysBeforeMonth leap month ≤ daysBeforeMonth leap later := by
  induction order with
  | refl => exact Nat.le_refl _
  | step after ih =>
      have step := daysBeforeMonth_succ leap (Nat.le_trans first after)
      exact Nat.le_trans ih (step ▸ Nat.le_add_right _ _)

/-- A year is as long as its months. -/
theorem daysBeforeMonth_end (leap : Bool) : daysBeforeMonth leap 13 = 365 + leap.toNat := by
  cases leap <;> decide

theorem daysBeforeYear_mono {year later : Int} (order : year ≤ later) :
    daysBeforeYear year ≤ daysBeforeYear later := by
  unfold daysBeforeYear
  omega

/-! ### The number of a date -/

/-- The days since the first of January 1970. -/
def numberOf (year : Int) (month day : Nat) : Int :=
  daysBeforeYear year + daysBeforeMonth (isLeap year) month + day - 1 - 719162

namespace Date

def dayNumber (date : Date) : Int :=
  numberOf date.year date.month date.day

theorem dayNumber_epoch : epoch.dayNumber = 0 := by
  decide

theorem dayNumber_next (date : Date) : date.next.dayNumber = date.dayNumber + 1 := by
  have month := date.month_valid
  have day := date.day_valid
  have months := daysBeforeMonth_succ (isLeap date.year) month.1
  unfold next
  split
  case isTrue inMonth =>
    simp only [dayNumber, numberOf]
    omega
  case isFalse lastOfMonth =>
    split
    case isTrue inYear =>
      simp only [dayNumber, numberOf]
      omega
    case isFalse lastOfYear =>
      have december : date.month = 12 := by omega
      have years := daysBeforeYear_succ date.year
      have january : daysBeforeMonth (isLeap (date.year + 1)) 1 = 0 := rfl
      rw [december] at months lastOfMonth day
      rw [daysBeforeMonth_end] at months
      simp only [dayNumber, numberOf, january, december]
      omega

theorem dayNumber_iterate_next (count : Nat) (date : Date) :
    (next^[count] date).dayNumber = date.dayNumber + count := by
  induction count with
  | zero => exact (Int.add_zero _).symm
  | succ count ih =>
      rw [Function.iterate_succ_apply', dayNumber_next, ih]
      omega

/-- A date is within its year. -/
theorem dayNumber_lt_year (date : Date) :
    date.dayNumber < daysBeforeYear (date.year + 1) - 719162 := by
  have day := date.day_valid
  have months := daysBeforeMonth_succ (isLeap date.year) date.month_valid.1
  have later := daysBeforeMonth_mono (isLeap date.year) (Nat.le_add_left 1 date.month)
    (Nat.succ_le_succ date.month_valid.2)
  rw [daysBeforeMonth_end] at later
  rw [daysBeforeYear_succ, dayNumber, numberOf]
  omega

theorem year_le_dayNumber (date : Date) :
    daysBeforeYear date.year - 719162 ≤ date.dayNumber := by
  have day := date.day_valid
  unfold dayNumber numberOf
  omega

theorem dayNumber_lt {date later : Date} (before : date.Before later) :
    date.dayNumber < later.dayNumber := by
  rcases before with years | ⟨sameYear, within⟩
  · have within := date.dayNumber_lt_year
    have order := daysBeforeYear_mono (Int.add_one_le_of_lt years)
    have start := later.year_le_dayNumber
    omega
  · have day := date.day_valid
    have first := later.day_valid
    unfold dayNumber numberOf
    rw [← sameYear]
    rcases within with months | ⟨sameMonth, days⟩
    · have whole := daysBeforeMonth_succ (isLeap date.year) date.month_valid.1
      have order := daysBeforeMonth_mono (isLeap date.year) (Nat.le_add_left 1 date.month) months
      omega
    · rw [← sameMonth]
      omega

theorem before_or_eq_or_before (date other : Date) :
    date.Before other ∨ date = other ∨ other.Before date := by
  unfold Before
  rw [Date.ext_iff]
  omega

theorem dayNumber_injective : Function.Injective dayNumber := by
  intro date other same
  rcases before_or_eq_or_before date other with before | equal | after
  · exact absurd same (Int.ne_of_lt (dayNumber_lt before))
  · exact equal
  · exact absurd same (Int.ne_of_gt (dayNumber_lt after))

theorem before_iff_dayNumber_lt {date later : Date} :
    date.Before later ↔ date.dayNumber < later.dayNumber := by
  constructor
  · exact dayNumber_lt
  · intro order
    rcases before_or_eq_or_before date later with before | equal | after
    · exact before
    · exact absurd order (equal ▸ Int.lt_irrefl _)
    · exact absurd (dayNumber_lt after) (Int.lt_asymm order)

theorem daysAfter_iff {days : Int} {start date : Date} :
    DaysAfter days start date ↔ date.dayNumber = start.dayNumber + days := by
  unfold DaysAfter
  rw [← dayNumber_injective.eq_iff, dayNumber_iterate_next, dayNumber_iterate_next]
  omega

end Date

namespace Instant

def seconds (instant : Instant) : Int :=
  86400 * instant.date.dayNumber + 3600 * instant.hour + 60 * instant.minute + instant.second

theorem isAt_iff {secs : Int} {instant : Instant} :
    instant.IsAt secs ↔ instant.seconds = secs := by
  have hour := instant.hour_valid
  have minute := instant.minute_valid
  have second := instant.second_valid
  unfold IsAt seconds
  rw [Date.daysAfter_iff, Date.dayNumber_epoch]
  omega

theorem two_digits (instant : Instant) :
    (instant.date.month < 100 ∧ instant.date.day < 100) ∧
      instant.hour < 100 ∧ instant.minute < 100 ∧ instant.second < 100 := by
  have months := instant.date.month_valid
  have days := Nat.le_trans instant.date.day_valid.2 (daysInMonth_le _ _)
  have hours := instant.hour_valid
  have minutes := instant.minute_valid
  have seconds := instant.second_valid
  omega

end Instant
end Gregorian
