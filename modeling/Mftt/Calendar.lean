import Mathlib.Order.Basic
import Mathlib.Tactic.IntervalCases

/-!
# The proleptic Gregorian calendar

Days are numbered from the first of January of the year 0. The number of a day is given by
counting: the days of the years before it, with one leap day for every fourth year apart from the
centuries that 400 does not divide, the days of the months before it, and the days of its month.
The lemmas say how the count moves on by one year and that it orders the dates.
-/

namespace Calendar

/-- A year with a 29th of February. -/
def Leap (year : Nat) : Prop := year % 4 = 0 ∧ (year % 100 ≠ 0 ∨ year % 400 = 0)

instance (year : Nat) : Decidable (Leap year) := inferInstanceAs (Decidable (_ ∧ _))

/-- The days of a month; the months are counted from one. -/
def daysInMonth (year month : Nat) : Nat :=
  if month = 2 then (if Leap year then 29 else 28)
  else if month = 4 ∨ month = 6 ∨ month = 9 ∨ month = 11 then 30
  else 31

/-- The days of the years before a year. -/
def daysBeforeYear (year : Nat) : Nat :=
  365 * year + (year + 3) / 4 - (year + 99) / 100 + (year + 399) / 400

/-- The days of the months of a year before a month. -/
def daysBeforeMonth (year month : Nat) : Nat :=
  ((List.range (month - 1)).map fun before => daysInMonth year (before + 1)).sum

/-- The number of a day. -/
def dayNumber (year month day : Nat) : Nat :=
  daysBeforeYear year + daysBeforeMonth year month + (day - 1)

/-- A day of the calendar. -/
structure Real (year month day : Nat) : Prop where
  month_pos : 1 ≤ month
  month_le : month ≤ 12
  day_pos : 1 ≤ day
  day_le : day ≤ daysInMonth year month

/-- The length of a year. -/
def daysInYear (year : Nat) : Nat := if Leap year then 366 else 365

theorem days_before_year_succ (year : Nat) :
    daysBeforeYear (year + 1) = daysBeforeYear year + daysInYear year := by
  -- A rounded-up quotient grows where its divisor divides the year.
  have fourth : (year + 1 + 3) / 4 = (year + 3) / 4 + if year % 4 = 0 then 1 else 0 := by
    split <;> omega
  have century : (year + 1 + 99) / 100 = (year + 99) / 100 + if year % 100 = 0 then 1 else 0 := by
    split <;> omega
  have cycle : (year + 1 + 399) / 400 = (year + 399) / 400 + if year % 400 = 0 then 1 else 0 := by
    split <;> omega
  have nested : year % 400 = 0 → year % 100 = 0 := by omega
  have nested' : year % 100 = 0 → year % 4 = 0 := by omega
  rw [daysInYear, daysBeforeYear, daysBeforeYear, fourth, century, cycle]
  by_cases divides : year % 400 = 0
  · simp [Leap, divides, nested' (nested divides)]
    omega
  · by_cases hundred : year % 100 = 0
    · simp [Leap, divides, hundred]
      omega
    · by_cases four : year % 4 = 0
      · simp [Leap, divides, hundred, four]
        omega
      · simp [Leap, divides, hundred, four]
        omega

theorem days_before_year_mono {year year' : Nat} (later : year ≤ year') :
    daysBeforeYear year ≤ daysBeforeYear year' := by
  induction later with
  | refl => exact Nat.le_refl _
  | step _ ih =>
    rw [days_before_year_succ]
    exact Nat.le_add_right_of_le ih

theorem days_before_month_succ (year : Nat) {month : Nat} (positive : 1 ≤ month) :
    daysBeforeMonth year (month + 1) = daysBeforeMonth year month + daysInMonth year month := by
  obtain ⟨before, rfl⟩ := Nat.exists_eq_add_of_le' positive
  simp [daysBeforeMonth, List.range_succ]

theorem days_before_month_mono (year : Nat) {month month' : Nat} (positive : 1 ≤ month)
    (later : month ≤ month') : daysBeforeMonth year month ≤ daysBeforeMonth year month' := by
  induction later with
  | refl => exact Nat.le_refl _
  | step before ih =>
    rw [days_before_month_succ year (positive.trans before)]
    exact Nat.le_add_right_of_le ih

/-- A date lies in its year. -/
theorem Real.day_of_year_lt {year month day : Nat} (real : Real year month day) :
    daysBeforeMonth year month + (day - 1) < daysInYear year := by
  obtain ⟨low, high, positive, bounded⟩ := real
  rw [daysInYear]
  by_cases leap : Leap year <;> interval_cases month <;>
    simp [daysBeforeMonth, daysInMonth, leap, List.range_succ] at bounded ⊢ <;> omega

/-- A date of an earlier year is an earlier day. -/
theorem Real.lt_of_year_lt {year month day year' : Nat} (real : Real year month day)
    (earlier : year < year') (month' day' : Nat) :
    dayNumber year month day < dayNumber year' month' day' := by
  have within := real.day_of_year_lt
  have next := days_before_year_succ year
  have mono := days_before_year_mono (show year + 1 ≤ year' from earlier)
  simp only [dayNumber]
  omega

end Calendar
