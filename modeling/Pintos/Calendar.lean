import Mathlib.Algebra.BigOperators.Intervals
import Mathlib.Tactic.IntervalCases

/-!
# Dates

The Gregorian calendar and Unix time: a date with a time of the day, and the number of seconds
since the beginning of 1970.
-/

namespace Calendar

/-- A leap year of the Gregorian calendar. -/
def IsLeap (year : Nat) : Prop :=
  year % 4 = 0 ∧ (year % 100 ≠ 0 ∨ year % 400 = 0)

instance (year : Nat) : Decidable (IsLeap year) :=
  inferInstanceAs (Decidable (_ ∧ _))

/-- The number of days of a year. -/
def yearDays (year : Nat) : Nat :=
  if IsLeap year then 366 else 365

/-- The number of days of a month, counted from 1. -/
def monthDays (year month : Nat) : Nat :=
  match month with
  | 2 => if IsLeap year then 29 else 28
  | 4 | 6 | 9 | 11 => 30
  | _ => 31

/-- A date and a time of the day. -/
structure DateTime where
  year : Nat
  month : Nat
  day : Nat
  hour : Nat
  minute : Nat
  second : Nat
  month_pos : 1 ≤ month
  month_le : month ≤ 12
  day_pos : 1 ≤ day
  day_le : day ≤ monthDays year month
  hour_lt : hour < 24
  minute_lt : minute < 60
  second_lt : second < 60

/-- The days from the beginning of 1970 to that of a year. -/
def daysBeforeYear (year : Nat) : Nat :=
  ∑ k ∈ Finset.range (year - 1970), yearDays (1970 + k)

/-- The days from the beginning of a year to that of a month. -/
def daysBeforeMonth (year month : Nat) : Nat :=
  ∑ k ∈ Finset.range (month - 1), monthDays year (k + 1)

/-- The seconds since the beginning of 1970. -/
def DateTime.unixTime (d : DateTime) : Nat :=
  (daysBeforeYear d.year + daysBeforeMonth d.year d.month + (d.day - 1)) * 86400 +
    d.hour * 3600 + d.minute * 60 + d.second

theorem monthDays_le (year month : Nat) : monthDays year month ≤ 31 := by
  unfold monthDays
  split
  · split <;> omega
  all_goals omega

/-- From 1970 to 2099 every fourth year is a leap year. -/
theorem isLeap_iff {y : Nat} (hy : y < 130) : IsLeap (1970 + y) ↔ y % 4 = 2 := by
  rw [IsLeap]
  omega

/-- The days before a year, in these years. -/
theorem daysBeforeYear_eq {y : Nat} (hy : y ≤ 130) :
    daysBeforeYear (1970 + y) = 365 * y + (y + 1) / 4 := by
  induction y with
  | zero => rfl
  | succ y ih =>
    have hprev := ih (Nat.le_of_succ_le hy)
    have hleap := isLeap_iff (Nat.lt_of_succ_le hy)
    rw [daysBeforeYear, Nat.add_sub_cancel_left] at hprev ⊢
    rw [Finset.sum_range_succ, hprev, yearDays]
    by_cases hy2 : y % 4 = 2
    · rw [if_pos (hleap.mpr hy2)]
      omega
    · rw [if_neg (mt hleap.mp hy2)]
      omega

/-- The days before a month, from those of a year that is not a leap year. -/
theorem daysBeforeMonth_eq (year : Nat) {month : Nat} (hpos : 1 ≤ month) (hle : month ≤ 12) :
    daysBeforeMonth year month =
      ([31, 28, 31, 30, 31, 30, 31, 31, 30, 31, 30, 31].take (month - 1)).sum +
        if month > 2 ∧ IsLeap year then 1 else 0 := by
  by_cases hleap : IsLeap year <;> interval_cases month <;>
    simp [daysBeforeMonth, Finset.sum_range_succ, monthDays, hleap]

end Calendar
