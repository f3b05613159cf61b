import Avro.Proofs.Calendar.Days
import Avro.Proofs.Conformance.Null
import Mathlib.Data.Rat.Floor

/-!
# Dates and moments as defaults

The default of a moment is the number of units from the start of 1970 in UTC, rounded down, where the unit is the one
that the logical type in the schema names (`schema_moment`, `encode_moment`). Schema and default look at the same option
apart from each other; `Options.momentUnit` is what they agree on. The default of a date is the number of days from the
first of 1970, which `Date.daysAfter_iff` counts one by one. No type takes a date and a time without a zone
(`refuses_localTime`). `denotesTimes` puts these together.
-/

namespace Avro

open RuleTable

/-! ## Units of time -/

/-- The nanoseconds in the unit that values of the logical type count. -/
def unitNanos? : String → Option Nat
  | "time-millis" | "timestamp-millis" => some 1000000
  | "time-micros" | "timestamp-micros" => some 1000
  | _ => none

/-- The logical type of moments. -/
def Options.momentType (o : Options) : String := if o.inMillis then "timestamp-millis" else "timestamp-micros"

/-- The nanoseconds in the unit of moments. -/
def Options.momentUnit (o : Options) : Nat := if o.inMillis then 1000000 else 1000

theorem unitNanos?_momentType (o : Options) : unitNanos? o.momentType = some o.momentUnit := by
  unfold Options.momentType Options.momentUnit
  split <;> rfl

/-- The setting with another unit of time. -/
def Setting.timed (cx : Setting) (p : TimePrecision) : Setting :=
  { cx with options := { cx.options with timePrecision := p } }

namespace Moment

/-- Nanoseconds from the start of 1970 in UTC; those that a second has in excess count on top. -/
def epochNanos (m : Moment) : Int := m.epochSeconds * 1000000000 + m.clock.nanosecond

/-- Seconds and their parts are put together to the whole number of units that have gone by. -/
theorem count_eq (m : Moment) (o : Options) :
    (if o.inMillis then m.epochMillis else m.epochMicros) = ⌊(m.epochNanos : ℚ) / o.momentUnit⌋ := by
  rw [Rat.floor_intCast_div_natCast]
  unfold Options.momentUnit epochMillis epochMicros epochNanos
  split <;> push_cast <;> omega

/-- A thousandth of a thousandth, rounded down each time, is a millionth rounded down. -/
theorem floor_thousandth (n : Int) :
    ⌊(n : ℚ) / (1000000 : Nat)⌋ = ⌊((⌊(n : ℚ) / (1000 : Nat)⌋ : Int) : ℚ) / (1000 : Nat)⌋ := by
  simp only [Rat.floor_intCast_div_natCast]
  omega

/-- All integers that the count is made of fit 64 bits. -/
theorem count_fits (m : Moment) : ∀ x ∈ [m.epochSeconds, m.epochSeconds * 1000, m.epochSeconds * 1000000,
    m.epochMillis, m.epochMicros], -2 ^ 63 ≤ x ∧ x < 2 ^ 63 := by
  have hseconds := m.epochSeconds_bounds
  simp only [List.forall_mem_cons, m.epochMillis_bounds, m.epochMicros_bounds, List.not_mem_nil, false_imp_iff,
    implies_true, and_true]
  omega

end Moment

/-! ## Schemas and defaults -/

section Types

variable {cx : Setting} {id : TypeId} {d : Descriptor} {r : Rule} {v : Value}

theorem schema_moment (hget : cx.graph.get? id = some d) (hd : d.shape = .refined .moment) (n : Nat) (s : Progress) :
    Runs cx (n + 1) s id (.refined .long cx.options.momentType) s :=
  runs_succ_iff.mpr (.leaf hget (.refined hd rfl))

theorem schema_date (hget : cx.graph.get? id = some d) (hd : d.shape = .refined .date) (n : Nat) (s : Progress) :
    Runs cx (n + 1) s id (.refined .int "date") s :=
  runs_succ_iff.mpr (.leaf hget (.refined hd rfl))

/-- A value of a refined type is encoded by the kind of the type. -/
theorem encode_refined {kind : Refined} (hget : cx.graph.get? id = some d) (hd : d.shape = .refined kind)
    (hk : kind ≠ .duration) :
    (standard.encode cx id v).outcome = some (Rule.encodeLogical cx.options kind v) := by
  have hr : cx.graph.ruleFor? d = some .logical := by
    cases kind <;> simp_all [TypeGraph.ruleFor?]
  rw [encode_eq hget hr]
  simp only [Rule.logical, hd, Encode.outcome_ofExcept]

theorem encode_moment (hget : cx.graph.get? id = some d) (hd : d.shape = .refined .moment) (m : Moment) :
    (standard.encode cx id (.moment m)).outcome =
      some (.ok (.int ⌊(m.epochNanos : ℚ) / cx.options.momentUnit⌋)) := by
  rw [encode_refined hget hd (by decide), Rule.encodeLogical, m.count_eq]

/-- A rule has no default for a date and a time without a zone. -/
theorem encode_localTime_rule {encode : TypeId → Value → Encode Json} (hr : cx.graph.ruleFor? d = some r)
    (hu : ∀ members, d.shape ≠ .union members) (t : LocalTime) :
    ∃ m, (r.encode cx encode d (.localTime t)).outcome = some (.error m) := by
  obtain ⟨name, origin, doc, shape⟩ := d
  cases shape with
  | union members => exact absurd rfl (hu members)
  | basic kind => cases kind <;> cases hr <;> exact ⟨_, rfl⟩
  | refined kind => cases kind <;> cases hr <;> exact ⟨_, rfl⟩
  | decimal params =>
    cases hr
    simp only [Rule.decimal]
    split <;> exact ⟨_, rfl⟩
  | map | sequence =>
    simp only [TypeGraph.ruleFor?] at hr
    split at hr <;> cases hr <;> exact ⟨_, rfl⟩
  | namedString | enum | record | forward => cases hr; exact ⟨_, rfl⟩

/-- What all rules but that of unions refuse, all types refuse. -/
theorem refuses_of_rules (hv : ∀ {d r}, cx.graph.ruleFor? d = some r → (∀ members, d.shape ≠ .union members) →
    ∃ m, (r.encode cx (standard.encode cx) d v).outcome = some (.error m)) (id : TypeId) : cx.Refuses id v := by
  have hleaf : ∀ {id d}, cx.graph.get? id = some d → (∀ members, d.shape ≠ .union members) → cx.Refuses id v := by
    intro id d hget hu
    cases hr : cx.graph.ruleFor? d with
    | none => exact refuses_of_noRule hget hr
    | some r =>
      unfold Setting.Refuses
      rw [encode_eq hget hr]
      exact hv hr hu
  cases hget : cx.graph.get? id with
  | none => exact refuses_of_gone hget
  | some d =>
    by_cases hu : ∃ members, d.shape = .union members
    · obtain ⟨members, hd⟩ := hu
      refine refuses_union hget hd fun flat hflat m hm => ?_
      obtain ⟨e, he, hu⟩ := leaf_of_mem hget hd hflat m hm
      exact hleaf he hu
    · exact hleaf hget (not_exists.mp hu)

/-- No type takes a date and a time without a zone. -/
theorem refuses_localTime (cx : Setting) (id : TypeId) (t : LocalTime) : cx.Refuses id (.localTime t) :=
  refuses_of_rules (fun hr hu => encode_localTime_rule hr hu t) id

end Types

/-! ## Dates and moments -/

/-- The defaults of the type are the moments that they are declared as. -/
structure DenotesMoments (cx : Setting) (id : TypeId) : Prop where
  /-- They are whole units from the start of 1970 in UTC, rounded down, and the schema names the unit. -/
  counts : ∃ logicalType u, (∀ n s, Runs cx (n + 1) s id (.refined .long logicalType) s) ∧
    unitNanos? logicalType = some u ∧
    ∀ m, (standard.encode cx id (.moment m)).outcome = some (.ok (.int ⌊(m.epochNanos : ℚ) / u⌋))
  /-- They are the same for the same moment, whatever the offsets are. -/
  same : ∀ {a b : Moment}, a.epochNanos = b.epochNanos →
    (standard.encode cx id (.moment a)).outcome = (standard.encode cx id (.moment b)).outcome
  /-- They are no smaller for a later moment. -/
  later : ∀ {a b : Moment} {i k : Int}, a.epochNanos ≤ b.epochNanos →
    (standard.encode cx id (.moment a)).outcome = some (.ok (.int i)) →
    (standard.encode cx id (.moment b)).outcome = some (.ok (.int k)) → i ≤ k
  /-- Milliseconds are a thousandth of microseconds, rounded down. -/
  millis : ∀ m, ∃ i k, (standard.encode (cx.timed .micros) id (.moment m)).outcome = some (.ok (.int i)) ∧
    (standard.encode (cx.timed .millis) id (.moment m)).outcome = some (.ok (.int k)) ∧ k = ⌊(i : ℚ) / (1000 : Nat)⌋
  /-- They fit 64 bits, and so does all that they are made of. -/
  fits : ∀ m, ∃ i, (standard.encode cx id (.moment m)).outcome = some (.ok (.int i)) ∧ (-2 ^ 63 ≤ i ∧ i < 2 ^ 63) ∧
    ∀ x ∈ [m.epochSeconds, m.epochSeconds * 1000, m.epochSeconds * 1000000, m.epochMillis, m.epochMicros],
      -2 ^ 63 ≤ x ∧ x < 2 ^ 63
  /-- A zone is asked for. -/
  noZone : ∀ t, (standard.encode cx id (.localTime t)).outcome = some (.error (.here .noZone))

/-- The defaults of the type are the dates that they are declared as. -/
structure DenotesDates (cx : Setting) (id : TypeId) : Prop where
  schema : ∀ n s, Runs cx (n + 1) s id (.refined .int "date") s
  /-- They are the days from the first of 1970, or with a minus sign those to it, and fit 32 bits. -/
  counts : ∀ x : Date, ∃ i, (standard.encode cx id (.date x)).outcome = some (.ok (.int i)) ∧
    (∀ n : Nat, i = n ↔ Date.DaysAfter n .epoch x) ∧ (∀ n : Nat, i = -n ↔ Date.DaysAfter n x .epoch) ∧
    -2 ^ 31 ≤ i ∧ i < 2 ^ 31

theorem denotesMoments {cx : Setting} {id : TypeId} {d : Descriptor} (hget : cx.graph.get? id = some d)
    (hd : d.shape = .refined .moment) : DenotesMoments cx id where
  counts := ⟨_, _, schema_moment hget hd, unitNanos?_momentType _, encode_moment hget hd⟩
  same h := by rw [encode_moment hget hd, encode_moment hget hd, h]
  later {a b i k} h hi hk := by
    rw [encode_moment hget hd] at hi hk
    cases hi
    cases hk
    have hcast : (a.epochNanos : ℚ) ≤ b.epochNanos := by exact_mod_cast h
    gcongr
  millis m := by
    have hget' : ∀ p, (cx.timed p).graph.get? id = some d := fun _ => hget
    exact ⟨_, _, encode_moment (hget' .micros) hd m, encode_moment (hget' .millis) hd m,
      Moment.floor_thousandth m.epochNanos⟩
  fits m := by
    refine ⟨_, encode_moment hget hd m, ?_, m.count_fits⟩
    rw [← m.count_eq]
    split
    · exact m.epochMillis_bounds
    · exact m.epochMicros_bounds
  noZone t := by rw [encode_refined hget hd (by decide)]; rfl

theorem denotesDates {cx : Setting} {id : TypeId} {d : Descriptor} (hget : cx.graph.get? id = some d)
    (hd : d.shape = .refined .date) : DenotesDates cx id where
  schema := schema_date hget hd
  counts x := by
    have hbounds := x.epochDays_bounds
    refine ⟨x.epochDays, by rw [encode_refined hget hd (by decide)]; rfl, fun n => ?_, fun n => ?_, by omega, by omega⟩
    · rw [Date.daysAfter_iff, Date.epochDays_epoch, zero_add]
    · rw [Date.daysAfter_iff, Date.epochDays_epoch]
      omega

/-- **Dates and moments stand for what they are declared as**, and what has no zone is no default of any type. The moments
are those that clocks show in UTC on any date, any second of which can have another one in nanoseconds on top, with any
distance from UTC. -/
theorem denotesTimes (cx : Setting) :
    (∀ id d, cx.graph.get? id = some d → d.shape = .refined .moment → DenotesMoments cx id) ∧
    (∀ id d, cx.graph.get? id = some d → d.shape = .refined .date → DenotesDates cx id) ∧
    (∀ id t, cx.Refuses id (.localTime t)) ∧
    ∀ (s : Int) (n : Nat) (offset : Int),
      (∃ m : Moment, m.epochSeconds = s ∧ m.clock.nanosecond = n ∧ m.offset = offset) ↔
        (∃ (d : Date) (t : Clock), s = d.epochDays * 86400 + t.secondOfDay ∧ n = t.nanosecond) ∧
          -86400 < offset ∧ offset < 86400 :=
  ⟨fun _ _ => denotesMoments, fun _ _ => denotesDates, refuses_localTime cx, fun _ _ _ => Moment.exists_iff_utc⟩

/-- A moment, a date, or one of both. -/
def events : Setting :=
  .of ⟨#[
    some { name := "datetime", shape := .refined .moment },
    some { name := "date", shape := .refined .date },
    some { name := "Union", shape := .union [{ target := 0 }, { target := 1 }] }]⟩ {} none

/-- Half a microsecond before 1970 in UTC, on clocks that show five and a half hours of 1970. -/
def lateClock : LocalTime := ⟨.epoch, ⟨5, 29, 59, 999999500, by decide, by decide, by decide, by decide⟩⟩

/-- Half past midnight on the day after the last date, an hour east of UTC, and a second and a half in nanoseconds. -/
def afterLast : Moment :=
  ⟨⟨262143, 1, 1, by decide⟩, ⟨0, 30, 30, 1500000000, by decide, by decide, by decide, by decide⟩, 3600, by decide,
    by decide⟩

theorem denotesTimes_events : DenotesMoments events 0 ∧ DenotesDates events 1 ∧ events.Refuses 2 (.localTime lateClock) ∧
    (standard.encode events 0 (.moment ⟨lateClock.date.toDay, lateClock.clock, 19800, by decide, by decide⟩)).outcome =
      some (.ok (.int (-1))) ∧
    (standard.encode events 0 (.moment afterLast)).outcome = some (.ok (.int 8210266875031500000)) ∧
    (standard.encode events 1 (.date ⟨⟨0, 2, 29, by decide⟩, by decide⟩)).outcome = some (.ok (.int (-719469))) := by
  obtain ⟨hmoments, hdates, hlocal, -⟩ := denotesTimes events
  exact ⟨hmoments 0 _ rfl rfl, hdates 1 _ rfl rfl, hlocal 2 lateClock, by cbv, by cbv, by cbv⟩

end Avro
