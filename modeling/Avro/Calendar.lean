/-!
# Dates and times

Days of the proleptic Gregorian calendar, dates, which are the days of some half a million years, times of day with
nanoseconds, and moments: a day and a time as clocks show them at some distance from UTC. A clock can go on for another
second in nanoseconds, so that a leap second has a place; what exceeds a second counts on top of it. A time of day does
so in the last second of a minute only.

`Day.epochDays` counts days from 1970-01-01, `Clock.secondOfDay` seconds from midnight, and `Moment.epochSeconds`
seconds from the start of 1970 in UTC.
-/

namespace Avro

/-- Whether February of the year has 29 days. -/
def isLeapYear (year : Int) : Bool := year % 4 == 0 && (year % 100 != 0 || year % 400 == 0)

/-- The number of days of a month; zero if there is no such month. -/
def daysInMonth (year : Int) (month : Nat) : Nat :=
  match month with
  | 1 | 3 | 5 | 7 | 8 | 10 | 12 => 31
  | 4 | 6 | 9 | 11 => 30
  | 2 => if isLeapYear year then 29 else 28
  | _ => 0

/-- A day of the proleptic Gregorian calendar. The year before year 1 is year 0. -/
structure Day where
  year : Int
  month : Nat
  day : Nat
  day_bounds : 1 ≤ day ∧ day ≤ daysInMonth year month
deriving DecidableEq

namespace Day

/-- The number of days of a year before its month `month`. -/
def daysBefore (year : Int) (month : Nat) : Nat :=
  (List.range month).foldr (fun m n => daysInMonth year m + n) 0

/-- The number of days from the first day of year 1 to the first day of the year. -/
def yearStart (year : Int) : Int :=
  let y := year - 1
  365 * y + y / 4 - y / 100 + y / 400

/-- The number of days from 1970-01-01; negative before. -/
def epochDays (d : Day) : Int :=
  yearStart d.year + (daysBefore d.year d.month : Nat) + (d.day : Int) - 1 - 719162

end Day

/-- A day of the years that a date can have. -/
structure Date extends Day where
  year_bounds : -262143 ≤ year ∧ year ≤ 262142
deriving DecidableEq

namespace Date

/-- The date, if there is such a day in the range of dates. -/
def ofYmd? (year : Int) (month day : Nat) : Option Date :=
  if h : (-262143 ≤ year ∧ year ≤ 262142) ∧ 1 ≤ day ∧ day ≤ daysInMonth year month then
    some ⟨⟨year, month, day, h.2⟩, h.1⟩
  else none

/-- The first date. -/
def first : Date := ⟨⟨-262143, 1, 1, by decide⟩, by decide⟩

/-- The last date. -/
def last : Date := ⟨⟨262142, 12, 31, by decide⟩, by decide⟩

end Date

/-- What a clock shows. Any second can go on for another one in nanoseconds. -/
structure Clock where
  hour : Nat
  minute : Nat
  second : Nat
  nanosecond : Nat
  hour_lt : hour < 24
  minute_lt : minute < 60
  second_lt : second < 60
  nanosecond_lt : nanosecond < 2000000000
deriving DecidableEq

namespace Clock

/-- Whole seconds from midnight. -/
def secondOfDay (t : Clock) : Nat := t.hour * 3600 + t.minute * 60 + t.second

/-- Microseconds from midnight. -/
def micros (t : Clock) : Nat := t.secondOfDay * 1000000 + t.nanosecond / 1000

/-- Milliseconds from midnight. -/
def millis (t : Clock) : Nat := t.micros / 1000

end Clock

/-- A time of day. Only the last second of a minute has room for a leap second. -/
structure Time extends Clock where
  leap_bound : nanosecond < if second = 59 then 2000000000 else 1000000000
deriving DecidableEq

instance : Coe Time Clock := ⟨Time.toClock⟩

/-- The time of day, if there is such a one. -/
def Time.ofHms? (hour minute second nanosecond : Nat) : Option Time :=
  if h : hour < 24 ∧ minute < 60 ∧ second < 60
      ∧ nanosecond < if second = 59 then 2000000000 else 1000000000 then
    have hnano : nanosecond < 2000000000 := by
      have := h.2.2.2
      split at this <;> omega
    some ⟨⟨hour, minute, second, nanosecond, h.1, h.2.1, h.2.2.1, hnano⟩, h.2.2.2⟩
  else none

/-- A date and what a clock shows, with no zone. -/
structure LocalTime where
  date : Date
  clock : Clock
deriving DecidableEq

/-- Whole seconds from the start of 1970 in UTC to what clocks show `offset` seconds east of UTC. -/
def epochSecondsAt (day : Day) (clock : Clock) (offset : Int) : Int :=
  day.epochDays * 86400 + (clock.secondOfDay : Int) - offset

/-- A day and what clocks show on it `offset` seconds east of UTC. In UTC the day is one that dates have; clocks at a
distance can be a day before the first date, or after the last. -/
structure Moment where
  day : Day
  clock : Clock
  offset : Int
  offset_bounds : -86400 < offset ∧ offset < 86400
  utc_bounds : Date.first.epochDays ≤ epochSecondsAt day clock offset / 86400 ∧
    epochSecondsAt day clock offset / 86400 ≤ Date.last.epochDays
deriving DecidableEq

namespace Moment

/-- The moment at which clocks that far east of UTC show the time; the distance is less than a day. -/
def ofLocal? (t : LocalTime) (offset : Int) : Option Moment :=
  if h : (-86400 < offset ∧ offset < 86400) ∧ Date.first.epochDays ≤ epochSecondsAt t.date.toDay t.clock offset / 86400 ∧
      epochSecondsAt t.date.toDay t.clock offset / 86400 ≤ Date.last.epochDays then
    some ⟨t.date.toDay, t.clock, offset, h.1, h.2⟩
  else none

/-- Whole seconds from the start of 1970 in UTC, without the nanoseconds. -/
def epochSeconds (m : Moment) : Int := epochSecondsAt m.day m.clock m.offset

/-- Microseconds from the start of 1970, rounded down. -/
def epochMicros (m : Moment) : Int :=
  m.epochSeconds * 1000000 + (m.clock.nanosecond / 1000 : Nat)

/-- Milliseconds from the start of 1970, rounded down. -/
def epochMillis (m : Moment) : Int :=
  m.epochSeconds * 1000 + (m.clock.nanosecond / 1000000 : Nat)

/-- Whether two moments are the same second of UTC and the same nanosecond in it, whatever their offsets. -/
def same (a b : Moment) : Bool :=
  a.epochSeconds == b.epochSeconds && a.clock.nanosecond == b.clock.nanosecond

end Moment
end Avro
