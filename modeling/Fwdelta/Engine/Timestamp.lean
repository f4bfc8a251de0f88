import Fwdelta.Gregorian
import Fwdelta.Text
import Mathlib.Order.Monotone.Basic

/-
The time of generation as text.

The arithmetic is that of checked 64-bit integers, `none` where it would overflow.
The shift of a day before the first of March of year 0 belongs to a truncating
division, and the division here rounds down: unless it is the last of its era, such a
day is counted from an era too early and lands one day too late in its year.
-/

namespace Fwdelta
namespace Timestamp

open Gregorian

def i64 (n : Int) : Option Int :=
  if Text.I64_MIN ≤ n ∧ n ≤ Text.I64_MAX then some n else none

def asI64 (n : Nat) : Int :=
  ((n : Int) + 9223372036854775808) % 18446744073709551616 - 9223372036854775808

def asU32 (n : Int) : Nat :=
  (n % 4294967296).toNat

/-! ### Days to a calendar date -/

def eraOf (z : Int) : Option Int := do
  let shifted ← if z ≥ 0 then some z else i64 (z - 146096)
  -- `div_euclid`, where the shift would fit `/`.
  some (shifted / 146097)

def dayOfEra (z era : Int) : Option Int := do
  let days ← i64 (era * 146097)
  i64 (z - days)

def yearOfEra (doe : Int) : Option Int := do
  let fours ← i64 (doe - doe.tdiv 1460)
  let hundreds ← i64 (fours + doe.tdiv 36524)
  let eras ← i64 (hundreds - doe.tdiv 146096)
  some (eras.tdiv 365)

def dayOfYear (doe yoe : Int) : Option Int := do
  let years ← i64 (365 * yoe)
  let fours ← i64 (years + yoe.tdiv 4)
  let hundreds ← i64 (fours - yoe.tdiv 100)
  i64 (doe - hundreds)

def shiftedMonth (doy : Int) : Option Int := do
  let scaled ← i64 (5 * doy)
  let numerator ← i64 (scaled + 2)
  some (numerator.tdiv 153)

def dayOfMonth (doy mp : Int) : Option Nat := do
  let scaled ← i64 (153 * mp)
  let numerator ← i64 (scaled + 2)
  let fromZero ← i64 (doy - numerator.tdiv 5)
  let day ← i64 (fromZero + 1)
  some (asU32 day)

def monthOf (mp : Int) : Option Nat := do
  let month ← if mp < 10 then i64 (mp + 3) else i64 (mp - 9)
  some (asU32 month)

def yearOf (y : Int) (m : Nat) : Option Int :=
  if m ≤ 2 then i64 (y + 1) else some y

def civilFromDays (z : Int) : Option (Int × Nat × Nat) := do
  let z ← i64 (z + 719468)
  let era ← eraOf z
  let doe ← dayOfEra z era
  let yoe ← yearOfEra doe
  let eras ← i64 (era * 400)
  let y ← i64 (yoe + eras)
  let doy ← dayOfYear doe yoe
  let mp ← shiftedMonth doy
  let d ← dayOfMonth doy mp
  let m ← monthOf mp
  let year ← yearOf y m
  some (year, m, d)

example : civilFromDays 19782 = some (2024, 2, 29) := by
  decide

/-! ### Seconds to text -/

def timestampFrom (secs : Int) : Option String := do
  let days := secs / 86400
  let rem := secs % 86400
  let (y, m, d) ← civilFromDays days
  some (Text.zeroPad 4 y ++ "-" ++ Text.zeroPad 2 m ++ "-" ++ Text.zeroPad 2 d ++ "T" ++
    Text.zeroPad 2 (rem.tdiv 3600) ++ ":" ++ Text.zeroPad 2 ((rem.tmod 3600).tdiv 60) ++ ":" ++
      Text.zeroPad 2 (rem.tmod 60) ++ "Z")

/-- The override is the environment variable, where it is set; the clock reads the
seconds since the start of 1970, unless it stands before it. -/
def epochSeconds (sourceDateEpoch : Option String) (clock : Option Nat) : Int :=
  ((sourceDateEpoch.bind (Text.parseSigned Text.I64_MIN Text.I64_MAX)).or
    (clock.map asI64)).getD 0

def timestamp (sourceDateEpoch : Option String) (clock : Option Nat) : Option String :=
  timestampFrom (epochSeconds sourceDateEpoch clock)

/-! ### The years of an era -/

theorem i64_eq_some {n : Int} (low : -9223372036854775808 ≤ n)
    (high : n ≤ 9223372036854775807) : i64 n = some n :=
  if_pos ⟨low, high⟩

/-- The days of the era before a year of it, which starts in March. -/
def yearStart (year : Nat) : Nat :=
  365 * year + year / 4 - year / 100 + year / 400

/-- The days of the era without the leap days. -/
def commonDays (day : Nat) : Nat :=
  day - day / 1460 + day / 36524 - day / 146096

theorem commonDays_mono : Monotone commonDays := by
  refine monotone_nat_of_le_succ fun day => ?_
  unfold commonDays
  omega

theorem exists_year {day years : Nat} (within : day < yearStart years) :
    ∃ year, year < years ∧ yearStart year ≤ day ∧ day < yearStart (year + 1) := by
  induction years with
  | zero => exact absurd within (Nat.not_lt_zero day)
  | succ years ih =>
      by_cases last : yearStart years ≤ day
      · exact ⟨years, Nat.lt_succ_self years, last, within⟩
      · obtain ⟨year, earlier, bounds⟩ := ih (Nat.lt_of_not_le last)
        exact ⟨year, Nat.lt_succ_of_lt earlier, bounds⟩

/-- Counted from an era too early, a year of the era is one of the next 400. -/
theorem commonDays_yearStart : ∀ late ≤ 1, ∀ year < 400,
    365 * (400 * late + year) ≤ commonDays (146097 * late + yearStart year) ∧
      commonDays (146097 * late + (yearStart (year + 1) - 1)) < 365 * (400 * late + year + 1) := by
  decide +kernel

theorem commonDays_div {late day year : Nat} (eras : late ≤ 1) (within : year < 400)
    (start : yearStart year ≤ day) (stop : day < yearStart (year + 1)) :
    commonDays (146097 * late + day) / 365 = 400 * late + year := by
  have low := commonDays_mono (Nat.add_le_add_left start (146097 * late))
  have high := commonDays_mono (Nat.add_le_add_left (Nat.le_sub_one_of_lt stop) (146097 * late))
  obtain ⟨first, last⟩ := commonDays_yearStart late eras year within
  omega

theorem yearOfEra_eq {late day year : Nat} (eras : late ≤ 1) (within : year < 400)
    (start : yearStart year ≤ day) (stop : day < yearStart (year + 1)) :
    yearOfEra (146097 * late + day : Nat) = some ((400 * late + year : Nat) : Int) := by
  have years := commonDays_div eras within start stop
  have bounded : 146097 * late + day < 292194 := by
    unfold yearStart at stop
    omega
  generalize 146097 * late + day = doe at *
  rw [← years]
  unfold yearOfEra commonDays
  simp (disch := omega) only [Int.tdiv_eq_ediv_of_nonneg, i64_eq_some, Option.bind_eq_bind,
    Option.bind_some]
  rw [Option.some.injEq]
  omega

theorem dayOfYear_eq {late doy year : Nat} (eras : late ≤ 1) (within : year < 400)
    (inYear : doy ≤ 366) :
    dayOfYear (146097 * late + (yearStart year + doy) : Nat) (400 * late + year : Nat) =
      some ((doy + late : Nat) : Int) := by
  unfold dayOfYear yearStart
  generalize doe : 146097 * late + _ = day
  generalize yoe : 400 * late + year = years
  simp (disch := omega) only [Int.tdiv_eq_ediv_of_nonneg, i64_eq_some, Option.bind_eq_bind,
    Option.bind_some]
  rw [Option.some.injEq]
  omega

/-! ### The months of a year from March -/

/-- The month of a day of the year, counted from March. -/
def monthFromMarch (doy : Nat) : Nat :=
  (5 * doy + 2) / 153

/-- The days of the year before a month. -/
def monthStart (mp : Nat) : Nat :=
  (153 * mp + 2) / 5

def civilMonth (doy : Nat) : Nat :=
  if monthFromMarch doy < 10 then monthFromMarch doy + 3 else monthFromMarch doy - 9

def civilDay (doy : Nat) : Nat :=
  doy - monthStart (monthFromMarch doy) + 1

/-- January and February belong to the year that started in the March before. -/
def civilYear (year : Int) (doy : Nat) : Int :=
  if civilMonth doy ≤ 2 then year + 1 else year

theorem asU32_natCast {n : Nat} (bounded : n < 4294967296) : asU32 n = n := by
  unfold asU32
  omega

theorem shiftedMonth_eq {doy : Nat} (within : doy ≤ 366) :
    shiftedMonth doy = some (monthFromMarch doy : Int) := by
  unfold shiftedMonth monthFromMarch
  rw [i64_eq_some (by omega) (by omega), Option.bind_eq_bind, Option.bind_some,
    i64_eq_some (by omega) (by omega), Option.bind_some,
    Int.tdiv_eq_ediv_of_nonneg (by omega), Option.some.injEq]
  omega

theorem dayOfMonth_eq {doy mp : Nat} (within : doy ≤ 366) (start : monthStart mp ≤ doy) :
    dayOfMonth doy mp = some (doy - monthStart mp + 1) := by
  unfold monthStart at *
  have day : (doy : Int) - (153 * mp + 2) / 5 + 1 = (doy - (153 * mp + 2) / 5 + 1 : Nat) := by
    omega
  unfold dayOfMonth
  rw [i64_eq_some (by omega) (by omega), Option.bind_eq_bind, Option.bind_some,
    i64_eq_some (by omega) (by omega), Option.bind_some,
    Int.tdiv_eq_ediv_of_nonneg (by omega), i64_eq_some (by omega) (by omega), Option.bind_some,
    i64_eq_some (by omega) (by omega), Option.bind_some, day, asU32_natCast (by omega)]

theorem monthOf_eq {mp : Nat} (within : mp < 12) :
    monthOf mp = some (if mp < 10 then mp + 3 else mp - 9) := by
  unfold monthOf
  by_cases spring : mp < 10
  · have month : (mp : Int) + 3 = (mp + 3 : Nat) := rfl
    have shifted : (mp : Int) < 10 := by omega
    rw [if_pos shifted, if_pos spring, month, i64_eq_some (by omega) (by omega)]
    exact congrArg some (asU32_natCast (by omega))
  · have month : (mp : Int) - 9 = (mp - 9 : Nat) := by omega
    have shifted : ¬ (mp : Int) < 10 := by omega
    rw [if_neg shifted, if_neg spring, month, i64_eq_some (by omega) (by omega)]
    exact congrArg some (asU32_natCast (by omega))

theorem yearOf_eq {year : Int} (low : -9000000000000000000 ≤ year)
    (high : year ≤ 9000000000000000000) (doy : Nat) :
    yearOf year (civilMonth doy) = some (civilYear year doy) := by
  unfold yearOf civilYear
  split
  · exact i64_eq_some (by omega) (by omega)
  · rfl

theorem monthStart_le (doy : Nat) : monthStart (monthFromMarch doy) ≤ doy := by
  unfold monthStart monthFromMarch
  omega

theorem lt_monthStart_succ (doy : Nat) : doy < monthStart (monthFromMarch doy + 1) := by
  unfold monthStart monthFromMarch
  omega

theorem monthFromMarch_lt {doy : Nat} (within : doy ≤ 366) : monthFromMarch doy < 12 := by
  unfold monthFromMarch
  omega

/-- March to December. -/
theorem monthStart_spring : ∀ leap : Bool, ∀ mp < 10,
    daysBeforeMonth leap (mp + 3) = monthStart mp + 59 + leap.toNat ∧
      monthStart (mp + 1) = monthStart mp + daysInMonth leap (mp + 3) := by
  decide

/-- January and February, the second as long as the year leaves it. -/
theorem monthStart_winter : ∀ leap : Bool, ∀ mp < 12, 10 ≤ mp →
    daysBeforeMonth leap (mp - 9) + 306 = monthStart mp ∧
      min (monthStart (mp + 1)) (365 + leap.toNat) =
        monthStart mp + daysInMonth leap (mp - 9) := by
  decide

theorem day_le {leap : Bool} {doy : Nat} (inYear : doy < 365 + leap.toNat) : doy ≤ 365 := by
  have bounded := leap.toNat_le
  omega

theorem civilMonth_valid {doy : Nat} (within : doy ≤ 366) :
    1 ≤ civilMonth doy ∧ civilMonth doy ≤ 12 := by
  have bounded := monthFromMarch_lt within
  unfold civilMonth
  split <;> omega

theorem civilMonth_le_iff {doy : Nat} (within : doy ≤ 366) :
    civilMonth doy ≤ 2 ↔ 10 ≤ monthFromMarch doy := by
  have bounded := monthFromMarch_lt within
  unfold civilMonth
  split <;> omega

theorem civilDay_bounds (doy : Nat) : 1 ≤ civilDay doy ∧ civilDay doy < 100 := by
  have after := lt_monthStart_succ doy
  unfold civilDay
  unfold monthStart at *
  omega

theorem civilDay_le_of_spring (leap : Bool) {doy : Nat} (spring : monthFromMarch doy < 10) :
    civilDay doy ≤ daysInMonth leap (civilMonth doy) := by
  have start := monthStart_le doy
  have after := lt_monthStart_succ doy
  have length := (monthStart_spring leap _ spring).2
  unfold civilDay civilMonth
  rw [if_pos spring]
  omega

theorem civilDay_le {leap : Bool} {doy : Nat} (inYear : doy < 365 + leap.toNat) :
    civilDay doy ≤ daysInMonth leap (civilMonth doy) := by
  by_cases spring : monthFromMarch doy < 10
  · exact civilDay_le_of_spring leap spring
  · have bounded := monthFromMarch_lt (Nat.le_succ_of_le (day_le inYear))
    have start := monthStart_le doy
    have after := lt_monthStart_succ doy
    have length := (monthStart_winter leap _ bounded (Nat.le_of_not_lt spring)).2
    unfold civilDay civilMonth
    rw [if_neg spring]
    omega

theorem numberOf_civil (year : Int) {doy : Nat} (within : doy ≤ 366) :
    numberOf (civilYear year doy) (civilMonth doy) (civilDay doy) =
      daysBeforeYear (year + 1) + doy - 719468 := by
  have bounded := monthFromMarch_lt within
  have start := monthStart_le doy
  have winter := civilMonth_le_iff within
  unfold civilYear numberOf civilDay
  by_cases spring : monthFromMarch doy < 10
  · have month : civilMonth doy = monthFromMarch doy + 3 := if_pos spring
    have before := (monthStart_spring (isLeap year) _ spring).1
    rw [if_neg (by omega), daysBeforeYear_succ, month]
    omega
  · have month : civilMonth doy = monthFromMarch doy - 9 := if_neg spring
    have before := (monthStart_winter (isLeap (year + 1)) _ bounded (Nat.le_of_not_lt spring)).1
    rw [if_pos (by omega), month]
    omega

/-- A day of a year from March, as the date it is; the last day of a common year is the
365th. -/
def civilDate (year : Int) (doy : Nat) (inYear : doy < 365 + (isLeap (year + 1)).toNat) :
    Date where
  year := civilYear year doy
  month := civilMonth doy
  day := civilDay doy
  month_valid := civilMonth_valid (Nat.le_succ_of_le (day_le inYear))
  day_valid := by
    have winter := civilMonth_le_iff (Nat.le_succ_of_le (day_le inYear))
    refine ⟨(civilDay_bounds doy).1, ?_⟩
    unfold civilYear
    split
    case isTrue early => exact civilDay_le inYear
    case isFalse late => exact civilDay_le_of_spring _ (by omega)

/-! ### The era of a day -/

/-- A day before the first of March of year 0, and not the last of its era. -/
def Misplaced (days : Int) : Prop :=
  days + 719468 < 0 ∧ (days + 719468) % 146097 ≠ 146096

instance (days : Int) : Decidable (Misplaced days) :=
  inferInstanceAs (Decidable (_ ∧ _))

def late (days : Int) : Nat :=
  if Misplaced days then 1 else 0

theorem late_le_one (days : Int) : late days ≤ 1 := by
  unfold late
  split <;> decide

theorem eraOf_eq {days : Int} (low : -9000000000000000000 ≤ days) :
    eraOf (days + 719468) = some ((days + 719468) / 146097 - late days) := by
  unfold eraOf
  by_cases early : days + 719468 < 0
  · rw [if_neg (Int.not_le.mpr early), i64_eq_some (by omega) (by omega), Option.bind_eq_bind,
      Option.bind_some, Option.some.injEq]
    by_cases last : (days + 719468) % 146097 = 146096
    · rw [late, if_neg (fun misplaced => misplaced.2 last)]
      omega
    · rw [late, if_pos ⟨early, last⟩]
      omega
  · rw [if_pos (Int.not_lt.mp early), late, if_neg (fun misplaced => early misplaced.1)]
    exact congrArg some (Int.sub_zero _).symm

theorem dayOfEra_eq {days : Int} (low : -9000000000000000000 ≤ days)
    (high : days ≤ 9000000000000000000) :
    dayOfEra (days + 719468) ((days + 719468) / 146097 - late days) =
      some ((146097 * late days + ((days + 719468) % 146097).toNat : Nat) : Int) := by
  have eras := late_le_one days
  unfold dayOfEra
  rw [i64_eq_some (by omega) (by omega), Option.bind_eq_bind, Option.bind_some,
    i64_eq_some (by omega) (by omega), Option.some.injEq]
  omega

/-- The date read off for a day: the year from March and the day of it, one too many
where the era is one too early. -/
theorem civilFromDays_eq {days : Int} (low : -9000000000000000000 ≤ days)
    (high : days ≤ 9000000000000000000) {year doy : Nat} (within : year < 400)
    (position : ((days + 719468) % 146097).toNat = yearStart year + doy)
    (inYear : yearStart year + doy < yearStart (year + 1)) :
    civilFromDays days =
      some (civilYear (year + 400 * ((days + 719468) / 146097)) (doy + late days),
        civilMonth (doy + late days), civilDay (doy + late days)) := by
  have eras := late_le_one days
  have bounded : doy + late days ≤ 366 := by
    unfold yearStart at inYear
    omega
  have start := monthStart_le (doy + late days)
  have months := monthFromMarch_lt bounded
  unfold civilFromDays
  rw [i64_eq_some (by omega) (by omega), Option.bind_eq_bind, Option.bind_some, eraOf_eq low,
    Option.bind_some, dayOfEra_eq low high, Option.bind_some, position,
    yearOfEra_eq eras within (Nat.le_add_right _ _) inYear, Option.bind_some,
    i64_eq_some (by omega) (by omega), Option.bind_some, i64_eq_some (by omega) (by omega),
    Option.bind_some, dayOfYear_eq eras within (by omega), Option.bind_some,
    shiftedMonth_eq bounded, Option.bind_some, dayOfMonth_eq bounded start, Option.bind_eq_bind,
    Option.bind_some, monthOf_eq months, Option.bind_some]
  have era : ((400 * late days + year : Nat) : Int) +
      ((days + 719468) / 146097 - late days) * 400 = year + 400 * ((days + 719468) / 146097) := by
    omega
  rw [era]
  change (yearOf _ (civilMonth (doy + late days))).bind _ = _
  rw [yearOf_eq (by omega) (by omega)]
  rfl

theorem exists_march {days : Int} (low : -9000000000000000000 ≤ days)
    (high : days ≤ 9000000000000000000) :
    ∃ (march : Int) (doy : Nat), doy < 365 + (isLeap (march + 1)).toNat ∧
      daysBeforeYear (march + 1) + doy - 719468 = days ∧
        civilFromDays days =
          some (civilYear march (doy + late days), civilMonth (doy + late days),
            civilDay (doy + late days)) := by
  have inEra : ((days + 719468) % 146097).toNat < yearStart 400 := by
    have whole : yearStart 400 = 146097 := rfl
    omega
  obtain ⟨year, within, start, stop⟩ := exists_year inEra
  obtain ⟨doy, position⟩ := Nat.exists_eq_add_of_le start
  have inYear : yearStart year + doy < yearStart (year + 1) := position ▸ stop
  refine ⟨year + 400 * ((days + 719468) / 146097), doy, ?_, ?_,
    civilFromDays_eq low high within position inYear⟩
  · rw [toNat_isLeap]
    unfold yearStart at inYear
    split <;> omega
  · have first : daysBeforeYear (year + 1) = yearStart year := by
      unfold daysBeforeYear yearStart
      omega
    rw [Int.add_right_comm, daysBeforeYear_cycle, first]
    omega

/-- No day overflows, and what is read off is the day or the one after it. -/
theorem civilFromDays_reads {days : Int} (low : -9000000000000000000 ≤ days)
    (high : days ≤ 9000000000000000000) :
    ∃ (year : Int) (month day : Nat), civilFromDays days = some (year, month, day) ∧
      (month < 100 ∧ day < 100) ∧ numberOf year month day = days + late days := by
  obtain ⟨march, doy, inYear, position, read⟩ := exists_march low high
  have bounded : doy + late days ≤ 366 := Nat.add_le_add (day_le inYear) (late_le_one days)
  have months := civilMonth_valid bounded
  refine ⟨_, _, _, read, ⟨by omega, (civilDay_bounds _).2⟩, ?_⟩
  rw [numberOf_civil march bounded, ← position]
  omega

/-! ### Right and misplaced days -/

theorem late_eq_zero_iff {days : Int} : late days = 0 ↔ ¬ Misplaced days := by
  unfold late
  split <;> simp_all

/-- The date read off for a day, where it is the date that day is. -/
def Dated (days : Int) (date : Date) : Prop :=
  civilFromDays days = some (date.year, date.month, date.day) ∧
    Date.DaysAfter days Date.epoch date

theorem Dated.dayNumber {days : Int} {date : Date} (dated : Dated days date) :
    date.dayNumber = days := by
  rw [Date.daysAfter_iff.mp dated.2, Date.dayNumber_epoch, Int.zero_add]

theorem exists_dated_iff {days : Int} (low : -9000000000000000000 ≤ days)
    (high : days ≤ 9000000000000000000) : (∃ date, Dated days date) ↔ ¬ Misplaced days := by
  rw [← late_eq_zero_iff]
  constructor
  · rintro ⟨date, dated⟩
    obtain ⟨year, month, day, read, _, number⟩ := civilFromDays_reads low high
    have fields := read.symm.trans dated.1
    rw [Option.some.injEq, Prod.mk.injEq, Prod.mk.injEq] at fields
    rw [fields.1, fields.2.1, fields.2.2] at number
    have same := number.symm.trans dated.dayNumber
    omega
  · intro onTime
    obtain ⟨march, doy, inYear, position, read⟩ := exists_march low high
    rw [onTime] at read
    refine ⟨civilDate march doy inYear, read, ?_⟩
    rw [Date.daysAfter_iff, Date.dayNumber_epoch, Int.zero_add, ← position]
    exact numberOf_civil march (Nat.le_succ_of_le (day_le inYear))

/-- What reading a date off a day has to give. -/
structure ReadRight (days : Int) (date : Date) : Prop where
  dated : Dated days date
  increasing : ∀ earlier before, Dated earlier before → earlier < days → before.Before date
  inverse : ∀ other : Date, other.dayNumber = days →
    civilFromDays other.dayNumber = some (other.year, other.month, other.day)

theorem Dated.readRight {days : Int} {date : Date} (dated : Dated days date) :
    ReadRight days date where
  dated := dated
  increasing := by
    intro earlier before first order
    rw [Date.before_iff_dayNumber_lt, first.dayNumber, dated.dayNumber]
    exact order
  inverse := by
    intro other number
    rw [← Date.dayNumber_injective (dated.dayNumber.trans number.symm), dated.dayNumber]
    exact dated.1

/-! ### The text of an instant -/

def isoText (year : Int) (month day hour minute second : Nat) : String :=
  Text.zeroPad 4 year ++ "-" ++ Text.zeroPad 2 month ++ "-" ++ Text.zeroPad 2 day ++ "T" ++
    Text.zeroPad 2 hour ++ ":" ++ Text.zeroPad 2 minute ++ ":" ++ Text.zeroPad 2 second ++ "Z"

theorem length_twoDigits {n : Nat} (short : n < 100) :
    (Text.zeroPad 2 n).toList.length = 2 :=
  Text.length_zeroPad ((Nat.length_toDigits_le_iff (by decide) (by decide)).mpr short)

theorem field_injective {front other separator : String} {n m : Nat} (short : n < 100)
    (alsoShort : m < 100)
    (same : front ++ separator ++ Text.zeroPad 2 n = other ++ separator ++ Text.zeroPad 2 m) :
    front = other ∧ n = m := by
  have lists : (front ++ separator).toList ++ (Text.zeroPad 2 n).toList =
      (other ++ separator).toList ++ (Text.zeroPad 2 m).toList := by
    rw [← String.toList_append, ← String.toList_append, same]
  have lengths : (Text.zeroPad 2 n).toList.length = (Text.zeroPad 2 m).toList.length :=
    (length_twoDigits short).trans (length_twoDigits alsoShort).symm
  obtain ⟨fronts, fields⟩ := List.append_inj' lists lengths
  constructor
  · exact (String.append_left_inj separator).mp (String.toList_inj.mp fronts)
  · exact Int.ofNat.inj (Text.zeroPad_injective 2 (String.toList_inj.mp fields))

/-- The date is read back from the text, and so is the time of day. -/
theorem isoText_injective {year year' : Int}
    {month month' day day' hour hour' minute minute' second second' : Nat}
    (months : month < 100 ∧ month' < 100) (days : day < 100 ∧ day' < 100)
    (hours : hour < 100 ∧ hour' < 100) (minutes : minute < 100 ∧ minute' < 100)
    (seconds : second < 100 ∧ second' < 100)
    (same : isoText year month day hour minute second =
      isoText year' month' day' hour' minute' second') :
    (year = year' ∧ month = month' ∧ day = day') ∧
      hour = hour' ∧ minute = minute' ∧ second = second' := by
  unfold isoText at same
  rw [String.append_left_inj] at same
  obtain ⟨same, sameSecond⟩ := field_injective seconds.1 seconds.2 same
  obtain ⟨same, sameMinute⟩ := field_injective minutes.1 minutes.2 same
  obtain ⟨same, sameHour⟩ := field_injective hours.1 hours.2 same
  obtain ⟨same, sameDay⟩ := field_injective days.1 days.2 same
  obtain ⟨same, sameMonth⟩ := field_injective months.1 months.2 same
  exact ⟨⟨Text.zeroPad_injective 4 same, sameMonth, sameDay⟩, sameHour, sameMinute, sameSecond⟩

def hourOf (secs : Int) : Nat :=
  (secs % 86400 / 3600).toNat

def minuteOf (secs : Int) : Nat :=
  (secs % 86400 % 3600 / 60).toNat

def secondOf (secs : Int) : Nat :=
  (secs % 86400 % 60).toNat

theorem timestampFrom_eq {secs : Int} {year : Int} {month day : Nat}
    (read : civilFromDays (secs / 86400) = some (year, month, day)) :
    timestampFrom secs =
      some (isoText year month day (hourOf secs) (minuteOf secs) (secondOf secs)) := by
  have hour : (secs % 86400).tdiv 3600 = hourOf secs := by
    unfold hourOf
    rw [Int.tdiv_eq_ediv_of_nonneg (by omega)]
    omega
  have minute : ((secs % 86400).tmod 3600).tdiv 60 = minuteOf secs := by
    unfold minuteOf
    rw [Int.tmod_eq_emod_of_nonneg (by omega), Int.tdiv_eq_ediv_of_nonneg (by omega)]
    omega
  have second : (secs % 86400).tmod 60 = secondOf secs := by
    unfold secondOf
    rw [Int.tmod_eq_emod_of_nonneg (by omega)]
    omega
  unfold timestampFrom
  simp only [read, hour, minute, second, Option.bind_eq_bind, Option.bind_some]
  rfl

theorem time_of_day (secs : Int) :
    secs % 86400 = 3600 * hourOf secs + 60 * minuteOf secs + secondOf secs := by
  unfold hourOf minuteOf secondOf
  omega

theorem time_valid (secs : Int) : hourOf secs < 24 ∧ minuteOf secs < 60 ∧ secondOf secs < 60 := by
  unfold hourOf minuteOf secondOf
  omega

/-- The text is that of the instant so many seconds after the start of 1970. -/
def Denotes (text : String) (secs : Int) : Prop :=
  ∃ instant : Instant, instant.IsAt secs ∧
    text = isoText instant.date.year instant.date.month instant.date.day instant.hour
      instant.minute instant.second

/-- A text denotes one count of seconds at most. -/
theorem Denotes.unique {text : String} {secs other : Int} (denotes : Denotes text secs)
    (also : Denotes text other) : secs = other := by
  obtain ⟨instant, onTime, written⟩ := denotes
  obtain ⟨instant', onTime', written'⟩ := also
  obtain ⟨⟨month, day⟩, hour, minute, second⟩ := instant.two_digits
  obtain ⟨⟨month', day'⟩, hour', minute', second'⟩ := instant'.two_digits
  obtain ⟨⟨years, months, days⟩, hours, minutes, seconds⟩ :=
    isoText_injective ⟨month, month'⟩ ⟨day, day'⟩ ⟨hour, hour'⟩ ⟨minute, minute'⟩
      ⟨second, second'⟩ (written.symm.trans written')
  have same : instant = instant' := Instant.ext (Date.ext years months days) hours minutes seconds
  rw [Instant.isAt_iff] at onTime onTime'
  rw [← onTime, same, onTime']

def instantOf (secs : Int) (date : Date) : Instant where
  date := date
  hour := hourOf secs
  minute := minuteOf secs
  second := secondOf secs
  hour_valid := (time_valid secs).1
  minute_valid := (time_valid secs).2.1
  second_valid := (time_valid secs).2.2

theorem day_fits {secs : Int} (low : Text.I64_MIN ≤ secs) (high : secs ≤ Text.I64_MAX) :
    -9000000000000000000 ≤ secs / 86400 ∧ secs / 86400 ≤ 9000000000000000000 := by
  unfold Text.I64_MIN at low
  unfold Text.I64_MAX at high
  omega

theorem denoted_iff_dated {secs : Int} (low : Text.I64_MIN ≤ secs) (high : secs ≤ Text.I64_MAX) :
    (∃ text, timestampFrom secs = some text ∧ Denotes text secs) ↔
      ∃ date, Dated (secs / 86400) date := by
  constructor
  · rintro ⟨text, printed, instant, onTime, written⟩
    obtain ⟨early, bounded⟩ := day_fits low high
    obtain ⟨year, month, day, read, short, _⟩ := civilFromDays_reads early bounded
    rw [timestampFrom_eq read, Option.some.injEq, written] at printed
    have time := time_valid secs
    obtain ⟨⟨months, days⟩, hours, minutes, seconds⟩ := instant.two_digits
    obtain ⟨⟨sameYear, sameMonth, sameDay⟩, _⟩ := isoText_injective ⟨short.1, months⟩
      ⟨short.2, days⟩ ⟨by omega, hours⟩ ⟨by omega, minutes⟩ ⟨by omega, seconds⟩ printed
    rw [sameYear, sameMonth, sameDay] at read
    exact ⟨instant.date, read, onTime.1⟩
  · rintro ⟨date, dated⟩
    exact ⟨_, timestampFrom_eq dated.1, instantOf secs date, ⟨dated.2, time_of_day secs⟩, rfl⟩

theorem denoted_iff_placed {secs : Int} (low : Text.I64_MIN ≤ secs) (high : secs ≤ Text.I64_MAX) :
    (∃ text, timestampFrom secs = some text ∧ Denotes text secs) ↔
      ¬ Misplaced (secs / 86400) := by
  obtain ⟨early, bounded⟩ := day_fits low high
  rw [denoted_iff_dated low high, exists_dated_iff early bounded]

/-! ### The seconds that are printed -/

theorem epochSeconds_fits (sourceDateEpoch : Option String) (clock : Option Nat) :
    Text.I64_MIN ≤ epochSeconds sourceDateEpoch clock ∧
      epochSeconds sourceDateEpoch clock ≤ Text.I64_MAX := by
  unfold epochSeconds
  cases read : sourceDateEpoch.bind (Text.parseSigned Text.I64_MIN Text.I64_MAX) with
  | some secs =>
      obtain ⟨text, _, parsed⟩ := Option.bind_eq_some_iff.mp read
      exact of_decide_eq_true (Option.filter_eq_some_iff.mp parsed).2
  | none =>
      cases clock with
      | none => decide
      | some secs =>
          rw [Option.none_or, Option.map_some, Option.getD_some]
          unfold asI64 Text.I64_MIN Text.I64_MAX
          omega

/-- Every 64-bit count of seconds can be asked for. -/
theorem timestamp_of_override {secs : Int} (low : Text.I64_MIN ≤ secs) (high : secs ≤ Text.I64_MAX)
    (width : Nat) (clock : Option Nat) :
    timestamp (some (Text.zeroPad width secs)) clock = timestampFrom secs := by
  unfold timestamp epochSeconds
  rw [Option.bind_some, Text.parseSigned_zeroPad low high]
  rfl

/-- The time of generation is the instant it was taken at, unless the environment asks
for a misplaced day. -/
theorem timestamp_denotes_iff (sourceDateEpoch : Option String) (clock : Option Nat) :
    (∃ text, timestamp sourceDateEpoch clock = some text ∧
        Denotes text (epochSeconds sourceDateEpoch clock)) ↔
      ¬ Misplaced (epochSeconds sourceDateEpoch clock / 86400) := by
  obtain ⟨low, high⟩ := epochSeconds_fits sourceDateEpoch clock
  exact denoted_iff_placed low high

/-! ### Which instants are denoted -/

/-- Every count of seconds is printed.  The text is that of its instant, and the date is
the one that the day is, exactly when the day is not misplaced. -/
theorem timestampFrom_denotes_iff {secs : Int} (low : Text.I64_MIN ≤ secs)
    (high : secs ≤ Text.I64_MAX) :
    (∃ text, timestampFrom secs = some text) ∧
      ((∃ text, timestampFrom secs = some text ∧ Denotes text secs) ↔
        ¬ Misplaced (secs / 86400)) ∧
      ((∃ date, ReadRight (secs / 86400) date) ↔ ¬ Misplaced (secs / 86400)) := by
  obtain ⟨early, bounded⟩ := day_fits low high
  obtain ⟨year, month, day, read, _, _⟩ := civilFromDays_reads early bounded
  refine ⟨⟨_, timestampFrom_eq read⟩, denoted_iff_placed low high, ?_⟩
  rw [← exists_dated_iff early bounded]
  exact exists_congr fun date => ⟨ReadRight.dated, Dated.readRight⟩

theorem instant_of_2025_is_denoted :
    (∃ text, timestampFrom 1755300000 = some text ∧ Denotes text 1755300000) ∧
      ∃ date, ReadRight (1755300000 / 86400) date := by
  have onTime : ¬ Misplaced (1755300000 / 86400) := by decide
  obtain ⟨_, text, date⟩ := @timestampFrom_denotes_iff 1755300000 (by decide) (by decide)
  exact ⟨text.mpr onTime, date.mpr onTime⟩

/-- The 28th of February of year -1 is printed as the 29th, which that year does not have. -/
theorem end_of_february_is_misread :
    timestampFrom (-62193744000) = some "-001-02-29T00:00:00Z" ∧
      (¬ ∃ text, timestampFrom (-62193744000) = some text ∧ Denotes text (-62193744000)) ∧
        ¬ ∃ date, Dated (-62193744000 / 86400) date := by
  have low : Text.I64_MIN ≤ -62193744000 := by decide
  have high : -62193744000 ≤ Text.I64_MAX := by decide
  have misplaced : Misplaced (-62193744000 / 86400) := by decide
  refine ⟨by decide +kernel, ?_, ?_⟩
  · rw [denoted_iff_placed low high]
    exact not_not_intro misplaced
  · rw [exists_dated_iff (day_fits low high).1 (day_fits low high).2]
    exact not_not_intro misplaced

end Timestamp
end Fwdelta
