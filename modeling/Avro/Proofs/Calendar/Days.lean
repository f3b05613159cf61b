import Avro.Proofs.Calendar
import Mathlib.Tactic.IntervalCases
import Mathlib.Tactic.Ring

/-!
# Days of the calendar

The calendar goes from day to day: `Day.next` is the next day of the month, the first day of the next month, or the
first day of the next year. The count of days grows by one from each day to the next (`Day.epochDays_next`), and each
day follows on another (`Day.exists_prev`), so every number is the count of a day (`Day.exists_epochDays`). Dates are
the days between two of them (`Day.year_bounds_iff`).

The count of one date exceeds that of another by the number of days from the second to the first, and by no other number
(`Date.daysAfter_iff`); it is zero on the first day of 1970. Moments are what clocks show on dates of UTC, with all
distances from it (`Moment.exists_iff_utc`).
-/

namespace Avro

/-! ## Months and years -/

theorem daysInMonth_pos {month : Nat} (hpos : 1 ≤ month) (hle : month ≤ 12) (year : Int) :
    1 ≤ daysInMonth year month := by
  by_cases hfeb : month = 2
  · subst hfeb
    simp only [daysInMonth]
    split <;> omega
  · interval_cases month <;> simp_all [daysInMonth]

namespace Day

theorem month_pos (d : Day) : 1 ≤ d.month := by
  obtain ⟨year, month, day, hday⟩ := d
  rcases month with _ | month
  · simp [daysInMonth] at hday
    omega
  · exact Nat.le_add_left 1 month

/-- The days before a month, and those of the month, come before the next month. -/
theorem daysBefore_succ (year : Int) (month : Nat) :
    daysBefore year (month + 1) = daysBefore year month + daysInMonth year month := by
  have hfold : ∀ (ms : List Nat) (x : Nat), ms.foldr (fun m n => daysInMonth year m + n) x =
      ms.foldr (fun m n => daysInMonth year m + n) 0 + x := by
    intro ms x
    induction ms with
    | nil => simp
    | cons m ms ih => rw [List.foldr_cons, List.foldr_cons, ih, Nat.add_assoc]
  unfold daysBefore
  rw [List.range_succ, List.foldr_append, hfold]
  simp

theorem daysBefore_mono (year : Int) {month month' : Nat} (h : month ≤ month') :
    daysBefore year month ≤ daysBefore year month' := by
  induction h with
  | refl => exact Nat.le_refl _
  | step _ ih =>
    rw [daysBefore_succ]
    omega

/-- The days of the months of a year are those from the start of the year to the start of the next. -/
theorem yearStart_succ (year : Int) : yearStart (year + 1) = yearStart year + daysBefore year 13 := by
  have hdays : daysBefore year 13 = 337 + daysInMonth year 2 := by
    simp only [daysBefore_succ, daysInMonth]
    simp [daysBefore]
    ring
  rw [hdays]
  simp only [yearStart, daysInMonth, isLeapYear, Bool.and_eq_true, Bool.or_eq_true, bne_iff_ne, beq_iff_eq]
  split <;> omega

theorem yearStart_mono {year year' : Int} (h : year ≤ year') : yearStart year ≤ yearStart year' := by
  induction year', h using Int.leInduction with
  | base => exact Int.le_refl _
  | succ later _ ih =>
    rw [yearStart_succ]
    omega

/-- A day is not before its year, and before the next. -/
theorem epochDays_mem_year (d : Day) :
    yearStart d.year ≤ d.epochDays + 719162 ∧ d.epochDays + 719162 < yearStart (d.year + 1) := by
  have hday := d.day_bounds
  have hmonth := d.month_le
  have hrest := daysBefore_mono d.year (show d.month + 1 ≤ 13 by omega)
  rw [daysBefore_succ] at hrest
  rw [yearStart_succ]
  unfold epochDays
  omega

/-- Dates are the days from the first to the last of them. -/
theorem year_bounds_iff (d : Day) : (-262143 ≤ d.year ∧ d.year ≤ 262142) ↔
    Date.first.epochDays ≤ d.epochDays ∧ d.epochDays ≤ Date.last.epochDays := by
  obtain ⟨hstart, hend⟩ := d.epochDays_mem_year
  have hfirst : Date.first.epochDays = yearStart (-262143) - 719162 := by decide
  have hlast : Date.last.epochDays = yearStart 262143 - 719163 := by decide
  rw [hfirst, hlast]
  refine ⟨fun ⟨hlow, hhigh⟩ => ?_, fun ⟨hlow, hhigh⟩ => ⟨?_, ?_⟩⟩
  · have := yearStart_mono hlow
    have := yearStart_mono (show d.year + 1 ≤ 262143 by omega)
    omega
  · by_contra h
    have := yearStart_mono (show d.year + 1 ≤ -262143 by omega)
    omega
  · by_contra h
    have := yearStart_mono (show 262143 ≤ d.year by omega)
    omega

/-! ## From day to day -/

/-- The day after the day. -/
def next (d : Day) : Day :=
  if hday : d.day < daysInMonth d.year d.month then ⟨d.year, d.month, d.day + 1, by omega⟩
  else if hmonth : d.month < 12 then
    ⟨d.year, d.month + 1, 1, Nat.le_refl 1, daysInMonth_pos (Nat.le_add_left 1 _) hmonth d.year⟩
  else ⟨d.year + 1, 1, 1, by decide, daysInMonth_pos (by decide) (by decide) _⟩

/-- The year is the same the next day, unless that is the first day of the next year. -/
theorem year_next (d : Day) :
    d.next.year = d.year ∨ d.next.year = d.year + 1 ∧ d.next.month = 1 ∧ d.next.day = 1 := by
  unfold next
  split
  · exact .inl rfl
  · split
    · exact .inl rfl
    · exact .inr ⟨rfl, rfl, rfl⟩

/-- The count grows by one from a day to the next. -/
theorem epochDays_next (d : Day) : d.next.epochDays = d.epochDays + 1 := by
  have hday := d.day_bounds
  have hmonth := d.month_le
  unfold next
  split
  · simp only [epochDays]
    omega
  · split
    · simp only [epochDays, daysBefore_succ]
      omega
    · have hlast : d.month = 12 := by omega
      have hfirst : daysBefore (d.year + 1) 1 = 0 := rfl
      have hyear : daysBefore d.year 13 = daysBefore d.year 12 + daysInMonth d.year 12 := daysBefore_succ d.year 12
      rw [hlast] at hday
      simp only [epochDays, hlast, yearStart_succ] at *
      omega

/-- Each day is the day after another. -/
theorem exists_prev (d : Day) : ∃ c : Day, c.next = d := by
  obtain ⟨year, month, day, hday⟩ := d
  have hpos := month_pos ⟨year, month, day, hday⟩
  have hle := month_le ⟨year, month, day, hday⟩
  dsimp only at hpos hle
  by_cases hd : 1 < day
  · refine ⟨⟨year, month, day - 1, by omega⟩, ?_⟩
    rw [next, dif_pos (by dsimp only; omega)]
    simp only [mk.injEq, true_and]
    omega
  · obtain rfl : day = 1 := by omega
    by_cases hm : 1 < month
    · have hlast : 1 ≤ daysInMonth year (month - 1) := daysInMonth_pos (by omega) (by omega) year
      refine ⟨⟨year, month - 1, daysInMonth year (month - 1), hlast, Nat.le_refl _⟩, ?_⟩
      rw [next, dif_neg (by dsimp only; omega), dif_pos (by dsimp only; omega)]
      simp only [mk.injEq, true_and, and_true]
      omega
    · obtain rfl : month = 1 := by omega
      refine ⟨⟨year - 1, 12, 31, by simp [daysInMonth]⟩, ?_⟩
      rw [next, dif_neg (by simp [daysInMonth]), dif_neg (by simp)]
      simp

/-- All numbers are counts of days. -/
theorem exists_epochDays (n : Int) : ∃ d : Day, d.epochDays = n := by
  induction n using Int.induction_on with
  | zero => exact ⟨⟨1970, 1, 1, by decide⟩, by decide⟩
  | succ n ih =>
    obtain ⟨d, hd⟩ := ih
    exact ⟨d.next, by rw [epochDays_next, hd]⟩
  | pred n ih =>
    obtain ⟨d, hd⟩ := ih
    obtain ⟨c, rfl⟩ := d.exists_prev
    rw [epochDays_next] at hd
    exact ⟨c, by omega⟩

end Day

namespace Date

variable {a b c d e : Date} {n k : Nat}

theorem toDay_inj : a.toDay = b.toDay ↔ a = b := by
  cases a
  cases b
  simp

/-- Counts that are not before the first date nor after the last are those of dates. -/
theorem exists_epochDays_iff {n : Int} : (∃ d : Date, d.epochDays = n) ↔ first.epochDays ≤ n ∧ n ≤ last.epochDays := by
  constructor
  · rintro ⟨d, rfl⟩
    exact (Day.year_bounds_iff _).mp d.year_bounds
  · intro h
    obtain ⟨d, rfl⟩ := Day.exists_epochDays n
    exact ⟨⟨d, (Day.year_bounds_iff d).mpr h⟩, rfl⟩

/-- The date after the date; the last one has none. -/
def next? (d : Date) : Option Date :=
  if h : -262143 ≤ d.toDay.next.year ∧ d.toDay.next.year ≤ 262142 then some ⟨d.toDay.next, h⟩ else none

theorem next?_eq_some : d.next? = some e ↔ d.toDay.next = e.toDay := by
  unfold next?
  split
  · rw [Option.some.injEq, ← toDay_inj]
  · next h =>
    simp only [reduceCtorEq, false_iff]
    intro he
    rw [he] at h
    exact h e.year_bounds

/-- Each date but the first is the day after another. -/
theorem exists_prev (h : d ≠ first) : ∃ c : Date, c.next? = some d := by
  obtain ⟨c, hc⟩ := d.toDay.exists_prev
  have hyear := d.year_bounds
  have hnext := c.year_next
  have hlow : -262143 ≤ c.year := by
    by_contra hlow
    refine h (toDay_inj.mp ?_)
    rw [hc] at hnext
    obtain ⟨hy, hm, hx⟩ : d.year = -262143 ∧ d.month = 1 ∧ d.day = 1 := by omega
    cases hd : d.toDay
    simp_all [first]
  rw [hc] at hnext
  exact ⟨⟨c, hlow, by omega⟩, next?_eq_some.mpr hc⟩

/-! ## Counting days -/

/-- The second day comes so many days after the first. -/
inductive DaysAfter : Nat → Date → Date → Prop
  | zero (a : Date) : DaysAfter 0 a a
  | succ {n : Nat} {a b c : Date} : DaysAfter n a b → b.next? = some c → DaysAfter (n + 1) a c

theorem DaysAfter.epochDays_eq (h : DaysAfter n a b) : b.epochDays = a.epochDays + n := by
  induction h with
  | zero => simp
  | succ _ hnext ih =>
    rw [← next?_eq_some.mp hnext, Day.epochDays_next, ih]
    push_cast
    ring

theorem DaysAfter.unique (h : DaysAfter n a b) (h' : DaysAfter n a c) : b = c := by
  induction h generalizing c with
  | zero => cases h'; rfl
  | succ _ hnext ih =>
    cases h' with
    | succ h' hnext' =>
      cases ih h'
      exact Option.some.inj (hnext.symm.trans hnext')

/-- On the way to a day are all days in between. -/
theorem DaysAfter.split (h : DaysAfter (n + k) a c) : ∃ b, DaysAfter n a b ∧ DaysAfter k b c := by
  induction k generalizing c with
  | zero => exact ⟨c, h, .zero c⟩
  | succ k ih =>
    cases h with
    | succ h hnext =>
      obtain ⟨b, hab, hbc⟩ := ih h
      exact ⟨b, hab, .succ hbc hnext⟩

/-- All days come after the first. -/
theorem exists_daysAfter_first (d : Date) : ∃ n, DaysAfter n first d := by
  -- the count of days is smaller for the day before, and bounded from below
  induction hk : (d.epochDays + 97000000).toNat using Nat.strong_induction_on generalizing d with
  | h k ih =>
    by_cases hd : d = first
    · exact ⟨0, hd ▸ .zero first⟩
    · obtain ⟨c, hc⟩ := exists_prev hd
      have hnext : d.epochDays = c.epochDays + 1 := by rw [← next?_eq_some.mp hc, Day.epochDays_next]
      have hlow := c.epochDays_bounds.1
      obtain ⟨n, hn⟩ := ih (c.epochDays + 97000000).toNat (by omega) c rfl
      exact ⟨n + 1, .succ hn hc⟩

/-- **The counts of two days differ by the number of days from one to the other.** -/
theorem daysAfter_iff : DaysAfter n a b ↔ b.epochDays = a.epochDays + n := by
  refine ⟨DaysAfter.epochDays_eq, fun h => ?_⟩
  obtain ⟨i, hi⟩ := exists_daysAfter_first a
  obtain ⟨k, hk⟩ := exists_daysAfter_first b
  have hik : k = i + n := by
    have hai := hi.epochDays_eq
    have hbk := hk.epochDays_eq
    omega
  obtain ⟨c, hc, hcb⟩ := (hik ▸ hk).split
  exact hi.unique hc ▸ hcb

/-- The first day of 1970. -/
def epoch : Date := ⟨⟨1970, 1, 1, by decide⟩, by decide⟩

theorem epochDays_epoch : epoch.epochDays = 0 := by decide

end Date

/-! ## Dates and clocks of UTC -/

/-- Seconds of a day are hours, minutes and seconds. -/
theorem Clock.exists_secondOfDay {s n : Nat} (hs : s < 86400) (hn : n < 2000000000) :
    ∃ t : Clock, t.secondOfDay = s ∧ t.nanosecond = n := by
  refine ⟨⟨s / 3600, s / 60 % 60, s % 60, n, by omega, by omega, by omega, hn⟩, ?_, rfl⟩
  simp only [secondOfDay]
  omega

/-- **Moments are what clocks show in UTC on all dates, with all distances from it that are less than a day.** -/
theorem Moment.exists_iff_utc {s offset : Int} {n : Nat} :
    (∃ m : Moment, m.epochSeconds = s ∧ m.clock.nanosecond = n ∧ m.offset = offset) ↔
      (∃ (d : Date) (t : Clock), s = d.epochDays * 86400 + t.secondOfDay ∧ n = t.nanosecond) ∧
        -86400 < offset ∧ offset < 86400 := by
  constructor
  · rintro ⟨m, rfl, rfl, rfl⟩
    obtain ⟨d, hd⟩ := Date.exists_epochDays_iff.mpr m.utc_bounds
    obtain ⟨t, ht, hn⟩ := Clock.exists_secondOfDay (s := (m.epochSeconds % 86400).toNat) (by omega) m.clock.nanosecond_lt
    refine ⟨⟨d, t, ?_, hn.symm⟩, m.offset_bounds⟩
    rw [hd, ht]
    unfold epochSeconds
    omega
  · rintro ⟨⟨d, t, rfl, rfl⟩, hoffset⟩
    -- the clocks there show another second of the day, and perhaps another day
    have hd := Date.exists_epochDays_iff.mp ⟨d, rfl⟩
    have ht := t.secondOfDay_lt
    obtain ⟨day, hday⟩ := Day.exists_epochDays ((d.epochDays * 86400 + t.secondOfDay + offset) / 86400)
    obtain ⟨clock, hclock, hn⟩ := Clock.exists_secondOfDay
      (s := ((d.epochDays * 86400 + t.secondOfDay + offset) % 86400).toNat) (by omega) t.nanosecond_lt
    have hseconds : epochSecondsAt day clock offset = d.epochDays * 86400 + t.secondOfDay := by
      unfold epochSecondsAt
      omega
    exact ⟨⟨day, clock, offset, hoffset, by omega⟩, hseconds, hn, rfl⟩

end Avro
