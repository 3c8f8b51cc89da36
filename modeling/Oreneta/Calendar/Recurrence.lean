import Mathlib.Data.List.Dedup
import Oreneta.Calendar.Reminders
import Oreneta.Lib.Months

/-!
# Repetition rules, and the next date one falls on

`calendar/recurrence.rs`, its dates: a rule, the first date after an occurrence, and the rule as it stands
there.  A date is a number of days; where `chrono` ends, in the year 262142, days go on here.  The zone is
this machine's.

* `nextDate`, `advanced`, `anchored` — as the source has them; `completeOccurrence` — what `complete_occurrence` does to a
  task's rule and date.
* `visits` — the dates a task is moved to, one completion after another.
-/

namespace Oreneta.Calendar

open Oreneta.Civil (ofDays toDays weekday)

inductive Frequency where
  | daily
  | weekly
  | monthly
  | yearly
  deriving DecidableEq, Repr

structure Recurrence where
  freq : Frequency
  /-- Every N days, weeks, months or years. -/
  interval : Nat
  /-- Monday is 0; none means the day the series starts on. -/
  weekdays : List Nat
  /-- The last day the series may fall on, as an instant. -/
  until_ : Option Int
  count : Option Nat
  /-- The nth weekday of the month, or -1 for the last. -/
  monthWeek : Option Int
  monthDay : Option Nat
  deriving DecidableEq, Repr

/-- `NaiveDate::from_ymd_opt`. -/
def fromYmd (year month d : Int) : Option Int :=
  if (Civil.mk year month d).isValid then some (Civil.mk year month d).toDays else none

def daysInMonth (year month : Int) : Int :=
  let next := if month = 12 then (year + 1, 1) else (year, month + 1)
  match fromYmd next.1 next.2 1 with
  | some first => (ofDays (first - 1)).day
  | none => 28

/-- A day of the month, clamped to the month's last day. -/
def clamped (year month d : Int) : Option Int := fromYmd year month (max (min d (daysInMonth year month)) 1)

/-- `NaiveDate::from_weekday_of_month_opt`. -/
def fromWeekdayOfMonth (year month dow n : Int) : Option Int :=
  if n = 0 then none
  else
    match fromYmd year month 1 with
    | some first => fromYmd year month ((n - 1) * 7 + (7 + dow - weekday first) % 7 + 1)
    | none => none

/-- The nth weekday of a month, or the last one for -1. -/
def nthWeekday (year month dow n : Int) : Option Int :=
  if n < 0 then
    match fromYmd year month (daysInMonth year month) with
    | some last =>
      let back := (7 + weekday last - dow) % 7
      let date := last - (back + 7 * (-n - 1))
      if (ofDays date).month = month then some date else none
    | none => none
  else fromWeekdayOfMonth year month dow n

def weekdayOf (index : Nat) : Int := min index 6

def plusMonths (year month months : Int) : Int × Int :=
  let total := year * 12 + month - 1 + months
  (total / 12, total % 12 + 1)

/-- The last day a rule may fall on. -/
def Recurrence.untilDate (zone : TimeZone) (rule : Recurrence) : Option Int :=
  rule.until_.bind fun u => if representable u then some (zone.toLocal u / day) else none

/-- The days of the week a weekly rule falls on, in order. -/
def Recurrence.days (rule : Recurrence) (current : Int) : List Nat :=
  let days := rule.weekdays.filter (· < 7)
  let days := if days.isEmpty then [(weekday current).toNat] else days
  (days.insertionSort (· ≤ ·)).dedup

/-- The nth of the periods a monthly or yearly rule counts in, as it falls there. -/
def Recurrence.candidate (rule : Recurrence) (current months : Int) : Option Int :=
  let dow := match rule.weekdays.head? with
    | some index => weekdayOf index
    | none => weekday current
  let d : Int := match rule.monthDay with
    | some d => d
    | none => (ofDays current).day
  let (year, month) := plusMonths (ofDays current).year (ofDays current).month months
  match rule.monthWeek with
  | some n => nthWeekday year month dow n
  | none => clamped year month d

/-- The first of the next four years' candidates, by months, or 48 periods', that is later. -/
def Recurrence.search (rule : Recurrence) (current step : Int) : Option Int :=
  (List.range 49).findSome? fun (k : Nat) => (rule.candidate current (step * (k : Int))).filter (current < ·)

/-- The first date after `current` that the rule falls on, without regard to its end. -/
def Recurrence.following (rule : Recurrence) (current : Int) : Option Int :=
  let interval : Int := (max rule.interval 1 : Nat)
  match rule.freq with
  | .daily => some (current + interval)
  | .weekly =>
    let days := rule.days current
    let today := (weekday current).toNat
    match days.find? (today < ·) with
    | some d => some (current + ((d : Int) - today))
    | none => some (current - today + (7 * interval + (days.headD 0 : Nat)))
  | .monthly => rule.search current interval
  | .yearly => rule.search current (12 * interval)

/-- The first date after `current` that the rule falls on; `none` when the series ends at `current`. -/
def nextDate (zone : TimeZone) (rule : Recurrence) (current : Int) : Option Int :=
  if rule.count.any (· ≤ 1) then none
  else
    match rule.following current with
    | none => none
    | some next =>
      match rule.untilDate zone with
      | some last => if last < next then none else some next
      | none => some next

/-- The rule as it stands at the next occurrence: a count is what is left. -/
def advanced (rule : Recurrence) : Recurrence :=
  { rule with count := rule.count.map fun left => max (left - 1) 1 }

/-- A rule completed for writing, anchored on a due date. -/
def anchored (rule : Recurrence) (anchor : Int) : Recurrence :=
  let rule := { rule with interval := max rule.interval 1 }
  let anchorDay := (weekday anchor).toNat
  match rule.freq with
  | .daily => { rule with weekdays := [], monthWeek := none, monthDay := none }
  | .weekly =>
    { rule with
      monthWeek := none
      monthDay := none
      weekdays := if rule.weekdays.isEmpty then [anchorDay] else rule.weekdays }
  | .monthly | .yearly =>
    if rule.monthWeek.isSome then
      { rule with
        monthDay := none
        weekdays := (if rule.weekdays.isEmpty then [anchorDay] else rule.weekdays).take 1 }
    else
      { rule with
        weekdays := []
        monthDay := some (rule.monthDay.getD (ofDays anchor).day.toNat) }

/-- Completing an occurrence: the next date, and the rule anchored on it. -/
def completeOccurrence (zone : TimeZone) (s : Recurrence × Int) : Option (Recurrence × Int) :=
  (nextDate zone s.1 s.2).map fun next => (anchored (advanced s.1) next, next)

/-- The rule and the date of a task after so many completions. -/
def visits (zone : TimeZone) (rule : Recurrence) (start : Int) : Nat → Option (Recurrence × Int)
  | 0 => some (rule, start)
  | n + 1 => (visits zone rule start n).bind (completeOccurrence zone)

end Oreneta.Calendar
