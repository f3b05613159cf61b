import Avro.Derivation.Named
import Avro.Rule.Basic

/-!
# Types that refine a primitive type

Dates, times, moments and identifiers are primitive types with a logical type; so are decimal numbers, which are
stored as bytes. A duration is a fixed-size value of twelve bytes with a name.
-/

namespace Avro.Rule

/-! ## Dates, times and identifiers -/

/-- The primitive and the logical type of a refined type; a duration has none. -/
def logicalType? (o : Options) : Refined → Option (Primitive × String)
  | .date => some (.int, "date")
  | .moment => some (.long, if o.inMillis then "timestamp-millis" else "timestamp-micros")
  | .time => some (if o.inMillis then (.int, "time-millis") else (.long, "time-micros"))
  | .uuid => some (.string, "uuid")
  | .duration => none

def logicalSchema (o : Options) (d : Descriptor) : Derive Schema :=
  match d.shape with
  | .refined kind =>
    match logicalType? o kind with
    | some (base, logicalType) => pure (.refined base logicalType)
    | none => refuse d
  | _ => refuse d

/-- The word for the values of a refined type. -/
def refinedWord : Refined → String
  | .date => "date"
  | .moment => "datetime"
  | .time => "time"
  | .uuid => "UUID"
  | .duration => "timedelta"

/-- The days, the units of time or the canonical text that stand for a value. -/
def encodeLogical (o : Options) (kind : Refined) (v : Value) : Except Mismatch Json :=
  match kind, v with
  | .date, .date d => .ok (.int d.epochDays)
  | .time, .time t => .ok (.int (if o.inMillis then t.millis else t.micros : Nat))
  | .moment, .moment m => .ok (.int (if o.inMillis then m.epochMillis else m.epochMicros))
  | .moment, .localTime _ => mismatch .noZone
  | .uuid, .uuid u => .ok (.str (String.ofList u.text))
  | .uuid, .str s =>
    match Uuid.parse? s.toList with
    | some u => .ok (.str (String.ofList u.text))
    | none => mismatch (.uuid s)
  | kind, v => mustBe (refinedWord kind) v

/-- Dates, times, moments and identifiers. -/
def logical : Rule where
  name := "logical"
  handles _ d :=
    match d.shape with
    | .refined kind => kind != .duration
    | _ => false
  schema cx _ _ d := logicalSchema cx.options d
  encode cx _ d v :=
    match d.shape with
    | .refined kind => .ofExcept (encodeLogical cx.options kind v)
    | _ => .ofExcept (mismatch (.otherKind "a logical type"))

/-! ## Decimal numbers -/

/-- The decimal type of a description. -/
def decimalType (d : Descriptor) : Except TypeFault Decimal :=
  match d.shape with
  | .decimal params =>
    match Decimal.ofParams params with
    | .ok t => .ok t
    | .error f => .error (.decimal d.name f)
  | _ => .error (.unsupported (.otherKind d.name))

/-- The attributes that show precision and scale. -/
def decimalAttributes (t : Decimal) : List (String × Json) :=
  ("precision", .int t.precision) ::
    match t.scale with
    | some s => [("scale", .int s)]
    | none => []

/-- The literal of a decimal or integer value. -/
def literal? : Value → Option String
  | .decimal text => some text
  | .int i => some (toString i.toInt)
  | _ => none

/-- The bytes of the unscaled integer of a value. -/
def encodeDecimal (t : Decimal) (v : Value) : Except Mismatch Json :=
  match literal? v with
  | none => mustBe "Decimal" v
  | some text =>
    match t.unscaled text.toList with
    | .ok i => .ok (bytesToJson (Decimal.bytes i))
    | .error f => mismatch (.literal text f)

/-- Decimal numbers. -/
def decimal : Rule where
  name := "decimal"
  handles _ d :=
    match d.shape with
    | .decimal _ => true
    | _ => false
  schema _ _ _ d := do
    let t ← Derive.ofFault (decimalType d)
    pure (.logical .bytes "decimal" (decimalAttributes t))
  encode _ _ d v :=
    match decimalType d with
    | .ok t => .ofExcept (encodeDecimal t v)
    | .error f => .ofExcept (mismatch (.type f))

/-! ## Durations -/

/-- The number of bytes of a duration. -/
def durationSize : Nat := 12

/-- Durations. -/
def duration : Rule where
  name := "duration"
  handles _ d :=
    match d.shape with
    | .refined kind => kind == .duration
    | _ => false
  schema cx _ id d := Derive.namedSchema cx id d fun h => pure (.fixed h.toHeading durationSize (some "duration"))
  encode _ _ _ _ := .ofExcept (mismatch .duration)

end Avro.Rule
