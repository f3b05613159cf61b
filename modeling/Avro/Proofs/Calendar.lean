import Avro.Calendar
import Mathlib.Algebra.Group.Int.Defs

/-!
# Bounds of dates and times

Dates are less than a hundred million days from 1970, in UTC also the days of moments, so the integers that stand for
dates, times of day and moments fit the types that hold them.
-/

namespace Avro

theorem daysInMonth_le (year : Int) (month : Nat) : daysInMonth year month ≤ 31 := by
  unfold daysInMonth
  repeat' split
  all_goals omega

namespace Day

theorem daysBefore_le (year : Int) (month : Nat) : daysBefore year month ≤ 31 * month := by
  unfold daysBefore
  have hsum : ∀ ms : List Nat, ms.foldr (fun m n => daysInMonth year m + n) 0 ≤ 31 * ms.length := by
    intro ms
    induction ms with
    | nil => exact Nat.le_refl _
    | cons m ms ih =>
      have := daysInMonth_le year m
      simp only [List.foldr_cons, List.length_cons]
      omega
  simpa using hsum (List.range month)

/-- Only the twelve months have days. -/
theorem month_le (d : Day) : d.month ≤ 12 := by
  obtain ⟨year, month, day, hday⟩ := d
  unfold daysInMonth at hday
  dsimp only at hday ⊢
  split at hday <;> omega

end Day

theorem Date.epochDays_bounds (d : Date) : -97000000 < d.epochDays ∧ d.epochDays < 97000000 := by
  have hyear := d.year_bounds
  have hday := d.day_bounds
  have hmonth := d.month_le
  have hbefore := Day.daysBefore_le d.year d.month
  have hlast := daysInMonth_le d.year d.month
  simp only [Day.epochDays, Day.yearStart]
  omega

namespace Clock

theorem secondOfDay_lt (t : Clock) : t.secondOfDay < 86400 := by
  have := t.hour_lt
  have := t.minute_lt
  have := t.second_lt
  unfold secondOfDay
  omega

theorem micros_lt (t : Clock) : t.micros < 86402000000 := by
  have := t.secondOfDay_lt
  have := t.nanosecond_lt
  unfold micros
  omega

theorem millis_lt (t : Clock) : t.millis < 86402000 := by
  have := t.micros_lt
  unfold millis
  omega

end Clock

namespace Moment

theorem epochSeconds_bounds (m : Moment) : -8380900000000 < m.epochSeconds ∧ m.epochSeconds < 8380900000000 := by
  have hfirst := Date.first.epochDays_bounds
  have hlast := Date.last.epochDays_bounds
  have hutc := m.utc_bounds
  unfold epochSeconds
  omega

theorem epochMicros_bounds (m : Moment) : -2 ^ 63 ≤ m.epochMicros ∧ m.epochMicros < 2 ^ 63 := by
  have hseconds := m.epochSeconds_bounds
  have hnanos := m.clock.nanosecond_lt
  unfold epochMicros
  omega

theorem epochMillis_bounds (m : Moment) : -2 ^ 63 ≤ m.epochMillis ∧ m.epochMillis < 2 ^ 63 := by
  have hseconds := m.epochSeconds_bounds
  have hnanos := m.clock.nanosecond_lt
  unfold epochMillis
  omega

end Moment
end Avro
