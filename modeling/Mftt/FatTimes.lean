import Mftt.Calendar
import Mftt.Fault
import Mathlib.Tactic.IntervalCases

/-!
# Time stamps of FAT32 entries

`read_dir` turns the date and the time of an entry into seconds since 1970. The days are counted
by a table for the months and a loop over the years, and this count is the one of the calendar.
The seconds of these days are a product of type `int`, so from the day on that 32 bits cannot hold
the result is another number.
-/

namespace Mftt.Fat

open Calendar

/-- `IS_LEAP_YEAR`. -/
def isLeapYear (year : Nat) : Bool :=
  (year % 4 == 0 && year % 100 != 0) || year % 400 == 0

/-- `days_till_a_month`. -/
def daysTillAMonth : List Int :=
  [0, 0, 31, 31 + 28, 31 + 28 + 31, 31 + 28 + 31 + 30, 31 + 28 + 31 + 30 + 31,
    31 + 28 + 31 + 30 + 31 + 30, 31 + 28 + 31 + 30 + 31 + 30 + 31,
    31 + 28 + 31 + 30 + 31 + 30 + 31 + 31, 31 + 28 + 31 + 30 + 31 + 30 + 31 + 31 + 30,
    31 + 28 + 31 + 30 + 31 + 30 + 31 + 31 + 30 + 31,
    31 + 28 + 31 + 30 + 31 + 30 + 31 + 31 + 30 + 31 + 30]

/-- `a_day_in_sec`. -/
abbrev A_DAY_IN_SEC : Nat := 60 * 60 * 24

/-- An `int` that is returned as `uint64_t`. -/
def intToUint64 (value : Int) : BitVec 64 := (BitVec.ofInt 32 value).signExtend 64

/-- The fields of a date. -/
def dateDay (date : BitVec 16) : Nat := (date &&& 0x1F#16).toNat

def dateMonth (date : BitVec 16) : Nat := (date >>> 5 &&& 0xF#16).toNat

def dateYear (date : BitVec 16) : Nat := (date >>> 9 &&& 0x7F#16).toNat + 1980

/-- The fields of a time. -/
def timeSecond (time : BitVec 16) : Nat := (time &&& 0x1F#16).toNat * 2

def timeMinute (time : BitVec 16) : Nat := (time >>> 5 &&& 0x3F#16).toNat

def timeHour (time : BitVec 16) : Nat := (time >>> 11 &&& 0x1F#16).toNat

/-- The loop of `fat_date2ts` over the years. -/
def addYears (days : Int) (year : Nat) : Int :=
  (List.range' 1970 (year - 1970)).foldl
    (fun days i => days + if isLeapYear i then 366 else 365) days

/-- `fat_date2ts`. The table has no entry for the months 13 to 15. -/
def fatDate2ts (date : BitVec 16) : Except Fault (BitVec 64) :=
  match daysTillAMonth[dateMonth date]? with
  | none => .error .outOfBounds
  | some till =>
    let days : Int := dateDay date - 1 + till
    let days := if 2 < dateMonth date ∧ isLeapYear (dateYear date) then days + 1 else days
    .ok (intToUint64 (addYears days (dateYear date) * A_DAY_IN_SEC))

/-- `fat_time2ts`. -/
def fatTime2ts (time : BitVec 16) : BitVec 64 :=
  intToUint64 (timeSecond time + timeMinute time * 60 + timeHour time * 60 * 60 : Nat)

/-- `i_mtime` as `read_dir` stores it. -/
def mtime (date time : BitVec 16) : Except Fault (BitVec 64) :=
  fatDate2ts date >>= fun days => .ok (days + fatTime2ts time)

/-- A date of the calendar; seven bits hold the years from 1980 to 2107. -/
def ValidDate (date : BitVec 16) : Prop :=
  Real (dateYear date) (dateMonth date) (dateDay date)

/-- A time of day. -/
structure ValidTime (time : BitVec 16) : Prop where
  second : timeSecond time < 60
  minute : timeMinute time < 60
  hour : timeHour time < 24

/-- The days from the first of January 1970 to a date. -/
def daysSince1970 (date : BitVec 16) : Nat :=
  dayNumber (dateYear date) (dateMonth date) (dateDay date) - dayNumber 1970 1 1

/-- The seconds from the start of 1970 to a date and a time of day. -/
def instant (date time : BitVec 16) : Nat :=
  daysSince1970 date * A_DAY_IN_SEC +
    (timeSecond time + timeMinute time * 60 + timeHour time * 60 * 60)

/-- The stored number is the number of seconds since 1970, and larger than that of every earlier
instant. -/
def RightTime (date time : BitVec 16) : Prop :=
  ∃ ts, mtime date time = .ok ts ∧ ts.toNat = instant date time ∧
    ∀ date' time', ValidDate date' → ValidTime time' → instant date' time' < instant date time →
      ∃ ts', mtime date' time' = .ok ts' ∧ ts' < ts

/-- The dates up to the 19th of January 2038. -/
def Until2038 (date : BitVec 16) : Prop :=
  dateYear date < 2038 ∨ dateYear date = 2038 ∧ dateMonth date = 1 ∧ dateDay date ≤ 19

variable {date : BitVec 16}

section Days

theorem is_leap_year_iff (year : Nat) : isLeapYear year = true ↔ Leap year := by
  simp only [isLeapYear, Leap, Bool.or_eq_true, Bool.and_eq_true, beq_iff_eq, bne_iff_ne]
  omega

theorem add_years_eq (days : Int) (later : Nat) :
    addYears days (1970 + later) =
      days + (daysBeforeYear (1970 + later) - daysBeforeYear 1970 : Int) := by
  induction later with
  | zero => simp [addYears]
  | succ later ih =>
    have turn : addYears days (1970 + (later + 1)) =
        addYears days (1970 + later) + if isLeapYear (1970 + later) then 366 else 365 := by
      simp only [addYears, Nat.add_sub_cancel_left, List.range'_1_concat, List.foldl_append,
        List.foldl_cons, List.foldl_nil]
    have next := days_before_year_succ (1970 + later)
    rw [daysInYear] at next
    rw [turn, ← Nat.add_assoc, next]
    simp only [is_leap_year_iff]
    split <;> push_cast <;> omega

/-- The table with the leap day. -/
theorem month_table (year : Nat) {month : Nat} (positive : 1 ≤ month) (bounded : month ≤ 12) :
    ∃ till, daysTillAMonth[month]? = some till ∧
      (if 2 < month ∧ isLeapYear year then till + 1 else till) = daysBeforeMonth year month := by
  by_cases leap : Leap year <;> simp only [is_leap_year_iff] <;> interval_cases month <;>
    simp [daysTillAMonth, daysBeforeMonth, daysInMonth, leap, List.range_succ]

theorem year_range (date : BitVec 16) : ∃ later, dateYear date = 1970 + later ∧ 10 ≤ later := by
  refine ⟨(date >>> 9 &&& 0x7F#16).toNat + 10, ?_, by omega⟩
  rw [dateYear]
  omega

theorem fat_date2ts_eq (valid : ValidDate date) :
    fatDate2ts date = .ok (intToUint64 (daysSince1970 date * A_DAY_IN_SEC : Nat)) := by
  obtain ⟨till, entry, table⟩ := month_table (dateYear date) valid.month_pos valid.month_le
  obtain ⟨later, year, -⟩ := year_range date
  have positive := valid.day_pos
  have base := days_before_year_mono (Nat.le_add_right 1970 later)
  have first : dayNumber 1970 1 1 = daysBeforeYear 1970 := by simp [dayNumber, daysBeforeMonth]
  have month : (if 2 < dateMonth date ∧ isLeapYear (dateYear date)
      then (dateDay date - 1 + till : Int) + 1 else dateDay date - 1 + till) =
      dateDay date - 1 + (daysBeforeMonth (dateYear date) (dateMonth date) : Int) := by
    rw [← table]
    split <;> omega
  have count : addYears (dateDay date - 1 +
      (daysBeforeMonth (dateYear date) (dateMonth date) : Int)) (dateYear date) =
      daysSince1970 date := by
    rw [daysSince1970, dayNumber, year, add_years_eq]
    omega
  rw [fatDate2ts, entry]
  dsimp only
  rw [month, count, ← Int.natCast_mul]

end Days

section Seconds

theorem int_to_uint64_nat (seconds : Nat) :
    (intToUint64 (seconds : Nat)).toNat = seconds % 2 ^ 32 +
      if 2 ^ 31 ≤ seconds % 2 ^ 32 then 2 ^ 64 - 2 ^ 32 else 0 := by
  rw [intToUint64, BitVec.ofInt_natCast, BitVec.toNat_signExtend, BitVec.msb_eq_decide,
    BitVec.toNat_setWidth, BitVec.toNat_ofNat]
  simp only [decide_eq_true_eq]
  split <;> omega

theorem time_lt {time : BitVec 16} (valid : ValidTime time) :
    timeSecond time + timeMinute time * 60 + timeHour time * 60 * 60 < A_DAY_IN_SEC := by
  have := valid.second
  have := valid.minute
  have := valid.hour
  simp only [A_DAY_IN_SEC]
  omega

variable {time : BitVec 16} (validDate : ValidDate date) (validTime : ValidTime time)
include validDate validTime

/-- The stored number for a date and a time of day. -/
theorem mtime_eq :
    ∃ ts, mtime date time = .ok ts ∧ ts.toNat =
      ((daysSince1970 date * A_DAY_IN_SEC) % 2 ^ 32 +
        (if 2 ^ 31 ≤ (daysSince1970 date * A_DAY_IN_SEC) % 2 ^ 32 then 2 ^ 64 - 2 ^ 32 else 0) +
        (timeSecond time + timeMinute time * 60 + timeHour time * 60 * 60)) % 2 ^ 64 := by
  refine ⟨_, by rw [mtime, fat_date2ts_eq validDate, bind_ok], ?_⟩
  have short := time_lt validTime
  simp only [A_DAY_IN_SEC] at short
  rw [BitVec.toNat_add, int_to_uint64_nat, fatTime2ts, int_to_uint64_nat,
    Nat.mod_eq_of_lt (show timeSecond time + timeMinute time * 60 + timeHour time * 60 * 60 < 2 ^ 32
      by omega), if_neg (show ¬2 ^ 31 ≤ timeSecond time + timeMinute time * 60 +
      timeHour time * 60 * 60 by omega), Nat.add_zero]

/-- Up to the day that an `int` can hold the stored number is right. -/
theorem mtime_eq_instant (early : daysSince1970 date < 24856) :
    ∃ ts, mtime date time = .ok ts ∧ ts.toNat = instant date time := by
  obtain ⟨ts, stored, value⟩ := mtime_eq validDate validTime
  refine ⟨ts, stored, value.trans ?_⟩
  have short : _ < 86400 := time_lt validTime
  have held : daysSince1970 date * A_DAY_IN_SEC < 2 ^ 31 := by
    simp only [A_DAY_IN_SEC]
    omega
  rw [instant]
  rw [if_neg (by omega)]
  omega

/-- From the next day on it is smaller than it should be by `2 ^ 32`, modulo `2 ^ 64`. -/
theorem mtime_ne_instant (late : 24856 ≤ daysSince1970 date) (bounded : daysSince1970 date < 2 ^ 16)
    {ts : BitVec 64} (stored : mtime date time = .ok ts) : ts.toNat ≠ instant date time := by
  obtain ⟨ts', stored', value⟩ := mtime_eq validDate validTime
  cases stored.symm.trans stored'
  have beyond : 2 ^ 31 ≤ daysSince1970 date * A_DAY_IN_SEC := by
    simp only [A_DAY_IN_SEC]
    omega
  have below : daysSince1970 date * A_DAY_IN_SEC < 2 ^ 33 := by
    simp only [A_DAY_IN_SEC]
    omega
  rw [value, instant]
  split <;> omega

end Seconds

section Dates

theorem days_before_2038 : daysBeforeYear 2038 = dayNumber 1970 1 1 + 24837 := by
  decide

/-- The dates whose seconds an `int` can hold. -/
theorem until_2038_iff (valid : ValidDate date) : Until2038 date ↔ daysSince1970 date < 24856 := by
  have real : Real (dateYear date) (dateMonth date) (dateDay date) := valid
  have start := days_before_2038
  rw [Until2038, daysSince1970]
  rcases Nat.lt_trichotomy (dateYear date) 2038 with earlier | same | later
  · have before := real.lt_of_year_lt earlier 1 1
    have first : dayNumber 2038 1 1 = daysBeforeYear 2038 := by simp [dayNumber, daysBeforeMonth]
    exact iff_of_true (.inl earlier) (by omega)
  · by_cases january : dateMonth date = 1
    · have none : daysBeforeMonth 2038 1 = 0 := by simp [daysBeforeMonth]
      rw [dayNumber, same, january]
      omega
    · have months := days_before_month_mono 2038 (show 1 ≤ 2 by decide)
        (show 2 ≤ dateMonth date by have := real.month_pos; omega)
      have january_days : daysBeforeMonth 2038 2 = 31 := by decide
      rw [dayNumber, same]
      exact iff_of_false (by omega) (by omega)
  · have years := days_before_year_mono (show 2038 + 1 ≤ dateYear date from later)
    have next := days_before_year_succ 2038
    have length : daysInYear 2038 = 365 := by decide
    rw [dayNumber]
    exact iff_of_false (by omega) (by omega)

/-- No date that seven bits of years can tell is further away. -/
theorem days_since_lt (valid : ValidDate date) : daysSince1970 date < 2 ^ 16 := by
  have real : Real (dateYear date) (dateMonth date) (dateDay date) := valid
  have bits : (date >>> 9 &&& 0x7F#16).toNat ≤ 127 := by
    exact Nat.and_le_right
  have before := real.lt_of_year_lt (show dateYear date < 2108 by rw [dateYear]; omega) 1 1
  have last : dayNumber 2108 1 1 = dayNumber 1970 1 1 + 50403 := by decide
  rw [daysSince1970]
  omega

theorem days_since_mono {date' time time' : BitVec 16} (validTime : ValidTime time)
    (before : instant date' time' < instant date time) :
    daysSince1970 date' ≤ daysSince1970 date := by
  have short := time_lt validTime
  simp only [instant, A_DAY_IN_SEC] at before short
  omega

end Dates

/-- The time stamp of an entry is right exactly for the dates up to the 19th of January 2038. -/
theorem fat_time_iff {date time : BitVec 16} (validDate : ValidDate date)
    (validTime : ValidTime time) : RightTime date time ↔ Until2038 date := by
  rw [until_2038_iff validDate]
  constructor
  · rintro ⟨ts, stored, value, -⟩
    by_contra late
    exact mtime_ne_instant validDate validTime (by omega) (days_since_lt validDate) stored value
  · intro early
    obtain ⟨ts, stored, value⟩ := mtime_eq_instant validDate validTime early
    refine ⟨ts, stored, value, fun date' time' validDate' validTime' before => ?_⟩
    have earlier := days_since_mono validTime before
    obtain ⟨ts', stored', value'⟩ := mtime_eq_instant validDate' validTime' (by omega)
    refine ⟨ts', stored', ?_⟩
    rw [BitVec.lt_def, value, value']
    exact before

/-- The first of January 1980 at midnight. -/
theorem first_fat_time :
    ValidDate 0x21#16 ∧ ValidTime 0#16 ∧ (RightTime 0x21#16 0#16 ↔ Until2038 0x21#16) := by
  have validDate : ValidDate 0x21#16 := ⟨by decide, by decide, by decide, by decide⟩
  have validTime : ValidTime 0#16 := ⟨by decide, by decide, by decide⟩
  exact ⟨validDate, validTime, fat_time_iff validDate validTime⟩

/-- On the 20th of January 2038 the stored number is not the number of seconds. -/
theorem time_after_2038 :
    ValidDate 0x7434#16 ∧ ValidTime 0#16 ∧
      mtime 0x7434#16 0#16 = .ok 0xFFFFFFFF80012400#64 ∧
      instant 0x7434#16 0#16 = 2147558400 ∧ ¬RightTime 0x7434#16 0#16 := by
  have validDate : ValidDate 0x7434#16 := ⟨by decide, by decide, by decide, by decide⟩
  have validTime : ValidTime 0#16 := ⟨by decide, by decide, by decide⟩
  have days : daysSince1970 0x7434#16 = 24856 := by decide
  have stored : mtime 0x7434#16 0#16 = .ok 0xFFFFFFFF80012400#64 := by
    rw [mtime, fat_date2ts_eq validDate, bind_ok, days]
    decide
  have seconds : instant 0x7434#16 0#16 = 2147558400 := by decide
  refine ⟨validDate, validTime, stored, seconds, ?_⟩
  rintro ⟨ts, stored', value, -⟩
  cases stored.symm.trans stored'
  exact absurd value (by decide)

end Mftt.Fat
