import Pintos.Basic
import Pintos.Calendar

/-!
# The real-time clock

`devices/rtc.c`.  The components of the time are in registers, in BCD; they are read until the
seconds have not changed, and made into a number of seconds.  An `int` is an `Int` here, and
`time_t` is an `unsigned long`.

The loop over the months takes in the current month, and leap years are counted as if 1970 was
one.  **The result is Unix time and `excessDays` more days** (`rtcGetTime_unixTime_iff`), at
least 27 of them, and a later time may yield a smaller number (`rtcGetTime_goes_back`).
-/

namespace Pintos
namespace RealTimeClock
open Calendar

/-- What the registers hold: the answer to each read, by the number of the read and the index. -/
abbrev Cmos := Nat → Nat → BitVec 8

/-- `RTC_REG_SEC`. -/
def rtcRegSec : Nat := 0

/-- `RTC_REG_MIN`. -/
def rtcRegMin : Nat := 2

/-- `RTC_REG_HOUR`. -/
def rtcRegHour : Nat := 4

/-- `RTC_REG_MDAY`. -/
def rtcRegMday : Nat := 7

/-- `RTC_REG_MON`. -/
def rtcRegMon : Nat := 8

/-- `RTC_REG_YEAR`. -/
def rtcRegYear : Nat := 9

/-- `bcd_to_bin`. -/
def bcdToBin (x : BitVec 8) : Int :=
  (x &&& 0x0f).toNat + (x >>> 4).toNat * 10

/-- The components of the time. -/
structure Components where
  sec : Int
  min : Int
  hour : Int
  mday : Int
  mon : Int
  year : Int

/-- The loop that reads the components, for a number of rounds; `n` reads have been made. -/
def readLoop (cmosRead : Cmos) : Nat → Nat → Option Components
  | 0, _ => none
  | rounds + 1, n =>
    let c : Components :=
      { sec := bcdToBin (cmosRead n rtcRegSec)
        min := bcdToBin (cmosRead (n + 1) rtcRegMin)
        hour := bcdToBin (cmosRead (n + 2) rtcRegHour)
        mday := bcdToBin (cmosRead (n + 3) rtcRegMday)
        mon := bcdToBin (cmosRead (n + 4) rtcRegMon)
        year := bcdToBin (cmosRead (n + 5) rtcRegYear) }
    if c.sec ≠ bcdToBin (cmosRead (n + 6) rtcRegSec) then
      readLoop cmosRead rounds (n + 7)
    else
      some c

/-- `days_per_month`. -/
def daysPerMonth : List Nat :=
  [31, 28, 31, 30, 31, 30, 31, 31, 30, 31, 30, 31]

/-- An `int` added to a `time_t`. -/
def addTime (time : Nat) (seconds : Int) : Nat :=
  ((time + seconds) % unsignedSize).toNat

/-- A round of the loop over the months. -/
def addMonth (time i : Nat) : Option Nat := do
  let days : Nat ← daysPerMonth[i]?
  some (addTime time (days * 24 * 60 * 60))

/-- The loop over the months. -/
def monthLoop (mon time : Nat) : Option Nat :=
  (List.range mon).foldlM addMonth time

/-- The rest of `rtc_get_time`: the components broken down into seconds. -/
def toSeconds (c : Components) : Option Nat := do
  let year := (if c.year < 70 then c.year + 100 else c.year) - 70
  let time := addTime 0 ((year * 365 + (year - 1).tdiv 4) * 24 * 60 * 60)
  let time ← monthLoop c.mon.toNat time
  let time := if c.mon > 2 ∧ year.tmod 4 = 0 then addTime time (24 * 60 * 60) else time
  let time := addTime time ((c.mday - 1) * 24 * 60 * 60)
  let time := addTime time (c.hour * 60 * 60)
  let time := addTime time (c.min * 60)
  some (addTime time c.sec)

/-- `rtc_get_time`, with a number of rounds for its first loop. -/
def rtcGetTime (cmosRead : Cmos) (rounds : Nat) : Option Nat := do
  let c ← readLoop cmosRead rounds 0
  toSeconds c

/-! ## What is presented -/

/-- A number of two digits in BCD. -/
def bcd (n : Nat) : BitVec 8 :=
  BitVec.ofNat 8 (n / 10 * 16 + n % 10)

/-- The registers hold a date and a time. -/
structure Presents (cmosRead : Cmos) (d : DateTime) : Prop where
  sec : ∀ n, cmosRead n rtcRegSec = bcd d.second
  min : ∀ n, cmosRead n rtcRegMin = bcd d.minute
  hour : ∀ n, cmosRead n rtcRegHour = bcd d.hour
  mday : ∀ n, cmosRead n rtcRegMday = bcd d.day
  mon : ∀ n, cmosRead n rtcRegMon = bcd d.month
  year : ∀ n, cmosRead n rtcRegYear = bcd (d.year % 100)

/-- The days in the result that are not in Unix time, for a year counted from 1970: the current
month, and the leap days that are counted less those that there are. -/
def excessDays (year month : Nat) : Int :=
  (daysPerMonth.getD (month - 1) 0 + (year - 1) / 4 + if month > 2 ∧ year % 4 = 0 then 1 else 0 : Nat)
    - ((year + 1) / 4 + if month > 2 ∧ year % 4 = 2 then 1 else 0 : Nat)

section Proofs
variable {cmosRead : Cmos} {d : DateTime}

theorem bcdToBin_bcd : ∀ n, n < 100 → bcdToBin (bcd n) = n := by
  decide

/-- Registers that hold a time are read in one round. -/
theorem readLoop_of_presents (h : Presents cmosRead d) (rounds n : Nat) :
    readLoop cmosRead (rounds + 1) n
      = some ⟨d.second, d.minute, d.hour, d.day, d.month, (d.year % 100 : Nat)⟩ := by
  have hday : d.day < 100 :=
    Nat.lt_of_le_of_lt (Nat.le_trans d.day_le (monthDays_le _ _)) (by decide)
  have hmonth : d.month < 100 := Nat.lt_of_le_of_lt d.month_le (by decide)
  have hhour : d.hour < 100 := Nat.lt_trans d.hour_lt (by decide)
  have hminute : d.minute < 100 := Nat.lt_trans d.minute_lt (by decide)
  have hsecond : d.second < 100 := Nat.lt_trans d.second_lt (by decide)
  have hyear : d.year % 100 < 100 := Nat.mod_lt _ (by decide)
  simp only [readLoop, h.sec, h.min, h.hour, h.mday, h.mon, h.year, bcdToBin_bcd _ hday,
    bcdToBin_bcd _ hmonth, bcdToBin_bcd _ hhour, bcdToBin_bcd _ hminute, bcdToBin_bcd _ hsecond,
    bcdToBin_bcd _ hyear, ne_eq, not_true_eq_false, if_false]

theorem addTime_eq {time n : Nat} {seconds : Int} (hseconds : seconds = n)
    (hfit : time + n < unsignedSize) : addTime time seconds = time + n := by
  subst hseconds
  rw [addTime, ← Int.natCast_add, ← Int.natCast_mod, Int.toNat_natCast, Nat.mod_eq_of_lt hfit]

/-- The loop over the months adds up their days. -/
theorem monthLoop_eq {mon time : Nat} (hmon : mon ≤ 12) (hfit : time + 365 * 86400 < unsignedSize) :
    monthLoop mon time = some (time + (daysPerMonth.take mon).sum * 86400) := by
  have htable : ∀ k, k < 12 → daysPerMonth[k]? = some (daysPerMonth.getD k 0) ∧
      (daysPerMonth.take (k + 1)).sum = (daysPerMonth.take k).sum + daysPerMonth.getD k 0 ∧
      (daysPerMonth.take (k + 1)).sum ≤ 365 := by
    decide
  have hround : ∀ k t, k < mon → t = time + (daysPerMonth.take k).sum * 86400 →
      ∃ t', addMonth t k = some t' ∧ t' = time + (daysPerMonth.take (k + 1)).sum * 86400 := by
    intro k t hk ht
    obtain ⟨hdays, hsum, hle⟩ := htable k (Nat.lt_of_lt_of_le hk hmon)
    refine ⟨_, by rw [addMonth, hdays]; rfl, ?_⟩
    rw [ht, addTime_eq (n := daysPerMonth.getD k 0 * 86400) (by push_cast; omega) (by omega), hsum]
    omega
  obtain ⟨time', hloop, rfl⟩ := foldlM_range
    (P := fun k t => t = time + (daysPerMonth.take k).sum * 86400) mon rfl hround
  exact hloop

section
variable (hfirst : 1970 ≤ d.year) (hlast : d.year ≤ 2038)
include hfirst hlast

/-- The years since 1970. -/
theorem years_eq :
    (if ((d.year % 100 : Nat) : Int) < 70 then ((d.year % 100 : Nat) : Int) + 100
      else ((d.year % 100 : Nat) : Int)) - 70 = (d.year - 1970 : Nat) := by
  split <;> omega

/-- The seconds of a date, with the code's count of its days. -/
theorem toSeconds_eq :
    toSeconds ⟨d.second, d.minute, d.hour, d.day, d.month, (d.year % 100 : Nat)⟩
      = some (((d.year - 1970) * 365 + (d.year - 1970 - 1) / 4 + (daysPerMonth.take d.month).sum
          + (if d.month > 2 ∧ (d.year - 1970) % 4 = 0 then 1 else 0) + (d.day - 1)) * 86400
        + d.hour * 3600 + d.minute * 60 + d.second) := by
  have hday := Nat.le_trans d.day_le (monthDays_le _ _)
  have hday_pos := d.day_pos
  have hmonth := d.month_le
  have hhour := d.hour_lt
  have hminute := d.minute_lt
  have hsecond := d.second_lt
  have hsum : ∀ m, m ≤ 12 → (daysPerMonth.take m).sum ≤ 365 := by decide
  have hmonths := hsum d.month hmonth
  have hyear : d.year - 1970 ≤ 68 := by omega
  simp only [toSeconds, years_eq hfirst hlast, Int.toNat_natCast]
  obtain ⟨y, hy⟩ : ∃ y, d.year - 1970 = y := ⟨_, rfl⟩
  rw [hy] at hyear ⊢
  have hquarter : ((y : Int) - 1).tdiv 4 = ((y - 1) / 4 : Nat) := by
    cases y with
    | zero => rfl
    | succ y => rw [Int.natCast_succ, Int.add_sub_cancel]; rfl
  have hmod : (y : Int).tmod 4 = (y % 4 : Nat) := rfl
  rw [addTime_eq (n := (y * 365 + (y - 1) / 4) * 86400)
      (by rw [hquarter]; push_cast; omega) (by rw [unsignedSize]; omega),
    monthLoop_eq hmonth (by rw [unsignedSize]; omega), some_bind, hmod, Nat.zero_add]
  generalize (daysPerMonth.take d.month).sum = months at hmonths ⊢
  -- the leap day of the current year
  have hleap : (if ((d.month : Nat) : Int) > 2 ∧ ((y % 4 : Nat) : Int) = 0 then
      addTime ((y * 365 + (y - 1) / 4) * 86400 + months * 86400) (24 * 60 * 60)
      else (y * 365 + (y - 1) / 4) * 86400 + months * 86400)
      = (y * 365 + (y - 1) / 4 + months + if d.month > 2 ∧ y % 4 = 0 then 1 else 0) * 86400 := by
    by_cases hcond : d.month > 2 ∧ y % 4 = 0
    · rw [if_pos hcond, if_pos (by omega), addTime_eq (n := 86400)
        (show (24 * 60 * 60 : Int) = (86400 : Nat) by decide) (by rw [unsignedSize]; omega)]
      omega
    · rw [if_neg hcond, if_neg (by omega)]
      omega
  have hle : (if d.month > 2 ∧ y % 4 = 0 then 1 else 0) ≤ 1 := by split <;> omega
  rw [hleap]
  generalize (if d.month > 2 ∧ y % 4 = 0 then 1 else 0) = leap at hle ⊢
  have hfit : (y * 365 + (y - 1) / 4 + months + leap + 31) * 86400 < 2200000000 := by omega
  obtain ⟨days, hdays⟩ : ∃ days, y * 365 + (y - 1) / 4 + months + leap = days := ⟨_, rfl⟩
  rw [hdays] at hfit ⊢
  rw [@addTime_eq _ ((d.day - 1) * 86400) ((d.day - 1) * 24 * 60 * 60) (by omega)
      (by rw [unsignedSize]; omega),
    @addTime_eq _ (d.hour * 3600) (d.hour * 60 * 60) (by omega) (by rw [unsignedSize]; omega),
    @addTime_eq _ (d.minute * 60) (d.minute * 60) (by omega) (by rw [unsignedSize]; omega),
    addTime_eq rfl (by rw [unsignedSize]; omega), Nat.add_mul]

/-- The code's count of days, and that of the calendar. -/
theorem days_eq :
    (((d.year - 1970) * 365 + (d.year - 1970 - 1) / 4 + (daysPerMonth.take d.month).sum
        + (if d.month > 2 ∧ (d.year - 1970) % 4 = 0 then 1 else 0) : Nat) : Int)
      = (daysBeforeYear d.year + daysBeforeMonth d.year d.month : Nat)
        + excessDays (d.year - 1970) d.month := by
  obtain ⟨y, hy⟩ := Nat.exists_eq_add_of_le hfirst
  have hleap := isLeap_iff (show y < 130 by omega)
  have htable : ∀ m, 1 ≤ m → m ≤ 12 →
      (daysPerMonth.take m).sum = (daysPerMonth.take (m - 1)).sum + daysPerMonth.getD (m - 1) 0 := by
    decide
  have hmonth := daysBeforeMonth_eq d.year d.month_pos d.month_le
  rw [hy] at hmonth
  simp only [hleap] at hmonth
  rw [hy, Nat.add_sub_cancel_left, daysBeforeYear_eq (by omega), hmonth,
    htable d.month d.month_pos d.month_le, excessDays]
  change _ = ((_ + ((daysPerMonth.take (d.month - 1)).sum + _) : Nat) : Int) + _
  omega

end

theorem le_excessDays : ∀ year, year ≤ 68 → ∀ month, 1 ≤ month → month ≤ 12 →
    27 ≤ excessDays year month := by
  decide +kernel

end Proofs

/-- **The result is Unix time exactly when there are no excess days.**  For every date and time
from 1970 to 2038 that the registers hold, `rtc_get_time` returns Unix time and `excessDays` days
more.  There are at least 27 of them, so that it is never Unix time. -/
theorem rtcGetTime_unixTime_iff (d : DateTime) (hfirst : 1970 ≤ d.year) (hlast : d.year ≤ 2038)
    (cmosRead : Cmos) (h : Presents cmosRead d) (rounds : Nat) :
    ∃ time, rtcGetTime cmosRead (rounds + 1) = some time ∧
      (time : Int) = d.unixTime + excessDays (d.year - 1970) d.month * 86400 ∧
      (time = d.unixTime ↔ excessDays (d.year - 1970) d.month = 0) ∧
      27 ≤ excessDays (d.year - 1970) d.month := by
  have hcode : rtcGetTime cmosRead (rounds + 1)
      = toSeconds ⟨d.second, d.minute, d.hour, d.day, d.month, (d.year % 100 : Nat)⟩ := by
    rw [rtcGetTime, readLoop_of_presents h]
    rfl
  have hdays := days_eq hfirst hlast
  have hexcess := le_excessDays (d.year - 1970) (by omega) d.month d.month_pos d.month_le
  refine ⟨_, by rw [hcode, toSeconds_eq hfirst hlast], ?_⟩
  obtain ⟨excess, he⟩ : ∃ excess, excessDays (d.year - 1970) d.month = excess := ⟨_, rfl⟩
  obtain ⟨days, hd⟩ : ∃ days, (d.year - 1970) * 365 + (d.year - 1970 - 1) / 4
    + (daysPerMonth.take d.month).sum + (if d.month > 2 ∧ (d.year - 1970) % 4 = 0 then 1 else 0)
      = days := ⟨_, rfl⟩
  rw [he, hd] at hdays
  rw [he] at hexcess ⊢
  rw [hd, DateTime.unixTime]
  omega

/-- Registers that hold a date and a time, in every read. -/
def registers (d : DateTime) : Cmos := fun _ index =>
  if index = rtcRegSec then bcd d.second
  else if index = rtcRegMin then bcd d.minute
  else if index = rtcRegHour then bcd d.hour
  else if index = rtcRegMday then bcd d.day
  else if index = rtcRegMon then bcd d.month
  else bcd (d.year % 100)

theorem presents_registers (d : DateTime) : Presents (registers d) d :=
  ⟨fun _ => rfl, fun _ => rfl, fun _ => rfl, fun _ => rfl, fun _ => rfl, fun _ => rfl⟩

/-- The last day of January 1970. -/
def lastOfJanuary : DateTime :=
  ⟨1970, 1, 31, 0, 0, 0, by decide, by decide, by decide, by decide, by decide, by decide, by decide⟩

/-- The day behind it. -/
def firstOfFebruary : DateTime :=
  ⟨1970, 2, 1, 0, 0, 0, by decide, by decide, by decide, by decide, by decide, by decide, by decide⟩

theorem rtcGetTime_lastOfJanuary :
    ∃ time, rtcGetTime (registers lastOfJanuary) 1 = some time ∧
      (time : Int) = lastOfJanuary.unixTime + excessDays 0 1 * 86400 ∧
      (time = lastOfJanuary.unixTime ↔ excessDays 0 1 = 0) ∧ 27 ≤ excessDays 0 1 :=
  rtcGetTime_unixTime_iff lastOfJanuary (by decide) (by decide) (registers lastOfJanuary)
    (presents_registers lastOfJanuary) 0

/-- A day later the result is two days less, and neither is Unix time. -/
theorem rtcGetTime_goes_back :
    lastOfJanuary.unixTime = 30 * 86400 ∧ firstOfFebruary.unixTime = 31 * 86400 ∧
      rtcGetTime (registers lastOfJanuary) 1 = some (61 * 86400) ∧
      rtcGetTime (registers firstOfFebruary) 1 = some (59 * 86400) := by
  decide +kernel

end RealTimeClock
end Pintos
