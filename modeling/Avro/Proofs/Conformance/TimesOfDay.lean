import Avro.Proofs.Conformance.Temporal
import Mathlib.Data.Prod.Lex

/-!
# Times of day as defaults

The default of a time of day is the number of units from midnight, rounded down, where the unit is the one that the
logical type in the schema names (`schema_time`, `encode_time`). A leap second has no number of its own: what goes
beyond a second counts into the next one. So a default is within the day unless the time is in a leap second at the end
of the day (`Time.pastLastSecond_iff`), and of two times the later one has the smaller default if and only if the
earlier one is in a leap second and overtakes it (`Time.units_lt_iff`). `denotesTimesOfDay` puts these together.
-/

namespace Avro

open RuleTable

namespace Time

/-! ## The order of times -/

theorem secondOfDay_inj {a b : Time} (h : a.secondOfDay = b.secondOfDay) (hnano : a.nanosecond = b.nanosecond) :
    a = b := by
  obtain ⟨⟨hour, minute, second, nanosecond, hhour, hminute, hsecond, _⟩, _⟩ := a
  obtain ⟨⟨hour', minute', second', nanosecond', hhour', hminute', hsecond', _⟩, _⟩ := b
  simp only [Clock.secondOfDay] at h
  dsimp only at hnano
  simp only [mk.injEq, Clock.mk.injEq]
  omega

/-- Times of day as clocks go: by the second, and in one second by the nanosecond. -/
instance : LinearOrder Time :=
  LinearOrder.lift' (fun t => toLex (t.secondOfDay, t.nanosecond)) fun _ _ h =>
    secondOfDay_inj (congrArg (fun k => (ofLex k).1) h) (congrArg (fun k => (ofLex k).2) h)

theorem le_iff {a b : Time} :
    a ≤ b ↔ a.secondOfDay < b.secondOfDay ∨ a.secondOfDay = b.secondOfDay ∧ a.nanosecond ≤ b.nanosecond :=
  Prod.Lex.toLex_le_toLex

/-! ## Units from midnight -/

/-- Nanoseconds from midnight; those that a second has in excess count on top. -/
def nanos (t : Time) : Nat := t.secondOfDay * 1000000000 + t.nanosecond

/-- The time is in a leap second, which only the last second of a minute can have behind it. -/
def InLeapSecond (t : Time) : Prop := 1000000000 ≤ t.nanosecond

/-- The time is in a leap second at the end of the day. -/
def PastLastSecond (t : Time) : Prop := t.hour = 23 ∧ t.minute = 59 ∧ t.InLeapSecond

/-- The time is in a leap second, and in whole units it is further into the second after it than the other time, which
is in that second. -/
def Overtakes (unit : Nat) (a b : Time) : Prop :=
  a.InLeapSecond ∧ b.secondOfDay = a.secondOfDay + 1 ∧ b.nanosecond / unit < (a.nanosecond - 1000000000) / unit

theorem second_of_inLeapSecond {t : Time} (h : t.InLeapSecond) : t.second = 59 := by
  have hnano := t.leap_bound
  unfold InLeapSecond at h
  split at hnano
  · assumption
  · omega

theorem pastLastSecond_iff {t : Time} : t.PastLastSecond ↔ 86400000000000 ≤ t.nanos := by
  have hhour := t.hour_lt
  have hminute := t.minute_lt
  have hnano := t.nanosecond_lt
  constructor
  · rintro ⟨hh, hm, hleap⟩
    have hs := second_of_inLeapSecond hleap
    unfold InLeapSecond at hleap
    simp only [nanos, Clock.secondOfDay]
    omega
  · intro h
    have hsecond := t.second_lt
    simp only [nanos, Clock.secondOfDay] at h
    refine ⟨by omega, by omega, ?_⟩
    unfold InLeapSecond
    omega

/-- A leap second at the end of the day is less than a second. -/
theorem nanos_lt (t : Time) : t.nanos < 86401000000000 := by
  have hsecond := t.secondOfDay_lt
  have hnano := t.nanosecond_lt
  unfold nanos
  omega

/-- Seconds and their parts are put together to the whole number of units that have gone by. -/
theorem count_eq (t : Time) (o : Options) : (if o.inMillis then t.millis else t.micros) = t.nanos / o.momentUnit := by
  unfold Options.momentUnit Clock.millis Clock.micros nanos
  split <;> omega

/-- The later of two times has fewer units just if the earlier one overtakes it. -/
theorem units_lt_iff {a b : Time} (h : a ≤ b) (o : Options) :
    b.nanos / o.momentUnit < a.nanos / o.momentUnit ↔ Overtakes o.momentUnit a b := by
  have hnano := a.nanosecond_lt
  rw [le_iff] at h
  unfold Overtakes InLeapSecond nanos Options.momentUnit
  split <;> omega

end Time

/-! ## Schemas and defaults -/

/-- The primitive and the logical type of times of day. -/
def Options.timeType (o : Options) : Primitive × String :=
  if o.inMillis then (.int, "time-millis") else (.long, "time-micros")

theorem unitNanos?_timeType (o : Options) : unitNanos? o.timeType.2 = some o.momentUnit := by
  unfold Options.timeType Options.momentUnit
  split <;> rfl

section Types

variable {cx : Setting} {id : TypeId} {d : Descriptor}

theorem schema_time (hget : cx.graph.get? id = some d) (hd : d.shape = .refined .time) (n : Nat) (s : Progress) :
    Runs cx (n + 1) s id (.refined cx.options.timeType.1 cx.options.timeType.2) s :=
  runs_succ_iff.mpr (.leaf hget (.refined hd rfl))

theorem encode_time (hget : cx.graph.get? id = some d) (hd : d.shape = .refined .time) (t : Time) :
    (standard.encode cx id (.time t)).outcome = some (.ok (.int (t.nanos / cx.options.momentUnit : Nat))) := by
  rw [encode_refined hget hd (by decide), Rule.encodeLogical, t.count_eq]

/-- The defaults of the type are the times of day that they are declared as. -/
structure DenotesTimesOfDay (cx : Setting) (id : TypeId) : Prop where
  /-- They are whole units from midnight, rounded down, and the schema names the unit. -/
  counts : ∃ base logicalType u, (∀ n s, Runs cx (n + 1) s id (.refined base logicalType) s) ∧
    unitNanos? logicalType = some u ∧
    ∀ t, (standard.encode cx id (.time t)).outcome = some (.ok (.int (t.nanos / u : Nat)))
  /-- Milliseconds are a thousandth of microseconds, rounded down. Both are within the day, unless the time is in a
  leap second at the end of the day; then they exceed the day by less than a second. -/
  range : ∀ t, ∃ i k : Nat, (standard.encode (cx.timed .micros) id (.time t)).outcome = some (.ok (.int i)) ∧
    (standard.encode (cx.timed .millis) id (.time t)).outcome = some (.ok (.int k)) ∧ k = i / 1000 ∧
    (i < 86400000000 ↔ ¬ t.PastLastSecond) ∧ (k < 86400000 ↔ ¬ t.PastLastSecond) ∧
    i < 86401000000 ∧ k < 86401000
  /-- They are no smaller for a later time, unless it is overtaken. -/
  later : ∀ {a b : Time} {i k : Int}, a ≤ b → (standard.encode cx id (.time a)).outcome = some (.ok (.int i)) →
    (standard.encode cx id (.time b)).outcome = some (.ok (.int k)) →
    (k < i ↔ Time.Overtakes cx.options.momentUnit a b)

/-- **Times of day stand for what they are declared as.** What a leap second has beyond a second counts into the next
one, also where that is the first of the next day. -/
theorem denotesTimesOfDay (hget : cx.graph.get? id = some d) (hd : d.shape = .refined .time) :
    DenotesTimesOfDay cx id where
  counts := ⟨_, _, _, schema_time hget hd, unitNanos?_timeType _, encode_time hget hd⟩
  range t := by
    have hget' : ∀ p, (cx.timed p).graph.get? id = some d := fun _ => hget
    have hmicros : (standard.encode (cx.timed .micros) id (.time t)).outcome =
        some (.ok (.int (t.nanos / 1000 : Nat))) := encode_time (hget' .micros) hd t
    have hmillis : (standard.encode (cx.timed .millis) id (.time t)).outcome =
        some (.ok (.int (t.nanos / 1000000 : Nat))) := encode_time (hget' .millis) hd t
    have hlt := t.nanos_lt
    rw [Time.pastLastSecond_iff]
    exact ⟨_, _, hmicros, hmillis, by omega, by omega, by omega, by omega, by omega⟩
  later {a b i k} h hi hk := by
    rw [encode_time hget hd] at hi hk
    cases hi
    cases hk
    rw [Int.ofNat_lt]
    exact Time.units_lt_iff h cx.options

end Types

/-! ## A leap second at the end of the day -/

/-- Half a second into a leap second at the end of the day. -/
def lastMoment : Time := (Time.ofHms? 23 59 59 1500000000).get (by decide)

/-- The type of times of day. -/
def timeOfDay : Descriptor := { name := "time", shape := .refined .time }

/-- A field with that time as its default. -/
def ringsAt : Field := { name := "at", type := { target := 1 }, default := some (.time lastMoment) }

/-- A record with that field. -/
def alarm : Setting := .of ⟨#[some { name := "Alarm", shape := .record [ringsAt] }, some timeOfDay]⟩ {} none

/-- The schema of alarms, with a default that no time of the day has. -/
def alarmSchema : Schema :=
  .record ⟨"Alarm", none⟩ none [⟨"at", .refined .long "time-micros", none, some (.int 86400500000)⟩]

theorem denotesTimesOfDay_alarm : alarm.graph.get? 1 = some timeOfDay ∧ timeOfDay.shape = .refined .time ∧
    DenotesTimesOfDay alarm 1 ∧
    (standard.encode alarm 1 (.time ⟨⟨1, 2, 3, 4005000, by decide, by decide, by decide, by decide⟩, by decide⟩)).outcome =
      some (.ok (.int 3723004005)) :=
  ⟨rfl, rfl, denotesTimesOfDay (d := timeOfDay) rfl rfl, by cbv⟩

/-- Not all defaults are within the day, and some are smaller than those of earlier times. -/
theorem leapSecond_not_inDay : standard.derive alarm 0 = .ok alarmSchema ∧
    (¬ ∀ (t : Time) (i : Int), (standard.encode alarm 1 (.time t)).outcome = some (.ok (.int i)) →
      0 ≤ i ∧ i < 86400000000) ∧
    ¬ ∀ (a b : Time) (i k : Int), a ≤ b → (standard.encode alarm 1 (.time a)).outcome = some (.ok (.int i)) →
      (standard.encode alarm 1 (.time b)).outcome = some (.ok (.int k)) → i ≤ k := by
  refine ⟨by cbv, fun h => ?_, fun h => ?_⟩
  · exact absurd (h lastMoment 86400500000 (by cbv)).2 (by decide)
  · let leap : Time := ⟨⟨0, 0, 59, 1500000000, by decide, by decide, by decide, by decide⟩, by decide⟩
    let next : Time := ⟨⟨0, 1, 0, 0, by decide, by decide, by decide, by decide⟩, by decide⟩
    have hle : leap ≤ next := Time.le_iff.mpr (.inl (by decide))
    exact absurd (h leap next 60500000 60000000 hle (by cbv) (by cbv)) (by decide)

end Avro
