import Avro.Fault

/-!
# Errors

A `Mismatch` is the reason why a default does not fit a type, together with the path to the part that does not fit. A
`SchemaError` is why a type has no schema.
-/

namespace Avro

/-- One step into a value. -/
inductive Segment where
  | index (i : Nat)
  | key (k : String)
  | field (name : String)
deriving DecidableEq

/-- Why a value does not fit a type. -/
inductive Reason where
  /-- A value of another kind is asked for. -/
  | expected (what got : String)
  /-- The type itself is at fault. -/
  | type (fault : TypeFault)
  /-- The description of the type is gone. -/
  | typeGone
  /-- The rule that was asked takes care of types of this kind only. -/
  | otherKind (kind : String)
  | int32 (value : Int)
  | notFinite
  | noZone
  | uuid (text : String)
  | duration
  | literal (text : String) (fault : LiteralFault)
  | symbol (symbols : List String) (got : String)
  | unknownField (record field : String)
  /-- A field has neither an entry nor a default. -/
  | noValue
  /-- A field has no default where each must have one. -/
  | noDefault
  /-- Some other reason, which a rule from outside gives in words. -/
  | other (text : String)
deriving DecidableEq

/-- A part of a value that does not fit its type. -/
structure Mismatch where
  /-- The way from the value to the part. -/
  path : List Segment := []
  reason : Reason
deriving DecidableEq

namespace Mismatch

/-- The value itself does not fit. -/
def here (reason : Reason) : Mismatch := ⟨[], reason⟩

/-- A value of another kind is asked for. -/
def expected (what : String) (got : Value) : Mismatch := here (.expected what got.kindWord)

/-- The mismatch as seen from a value that has the value as a part. -/
def within (m : Mismatch) (s : Segment) : Mismatch := ⟨s :: m.path, m.reason⟩

end Mismatch

/-- Why a type has no schema. -/
inductive SchemaError where
  | type (fault : TypeFault)
  | invalidDefault (field : String) (mismatch : Mismatch)
  /-- Some default needs itself to be complete. -/
  | endlessDefault
deriving DecidableEq

end Avro
