import Avro.Error.Basic
import Avro.Text.Quoted

/-!
# The wording of errors

Each cause has one text. The identity of a description that is gone appears in one of them, so the messages take a
function that shows an identity.
-/

namespace Avro

open Text (quoted)

/-- The names joined by a comma and a blank. -/
def commaJoined (names : List String) : String := ", ".intercalate names

def NameFault.message : NameFault → String
  | grammar => "must start with [A-Za-z_] followed by [A-Za-z0-9_]"
  | segment text => "namespace segment " ++ quoted text ++ " is not a valid name"
  | taken => "a different type with this name is already defined"
  | repeatedField record => "duplicate field in " ++ record
  | noSymbols => "enum has no symbols"
  | nameless => "forward reference without a name"

def DecimalFault.message : DecimalFault → String
  | count given => "expected precision and optional scale, got " ++ toString given ++ " parameter(s)"
  | precision given => "precision must be >= 1; got " ++ toString given
  | scale given => "scale must be >= 0; got " ++ toString given
  | scaleAbovePrecision s p => "scale " ++ toString s ++ " must not exceed precision " ++ toString p

def Unsupported.message : Unsupported → String
  | noRule description => description
  | otherKind name => name
  | partOfItself name => name ++ " refers to itself without a record, enum or fixed in the cycle"
  | memberOfItself name => "union " ++ name ++ " contains itself"
  | mapKeys map key => map ++ " with " ++ key ++ " keys (map keys must be strings)"
  | other text => text

/-- The text of the literal and what is wrong with it. -/
def LiteralFault.message (text : String) : LiteralFault → String
  | malformed => "invalid decimal " ++ quoted text
  | digits given precision => text ++ " has " ++ toString given ++ " digits; precision is " ++ toString precision
  | places given scale => text ++ " has " ++ toString given ++ " decimal places; scale is " ++ toString scale
  | tooLarge => text ++ " is too large"

section

variable (showId : TypeId → String)

def TypeFault.message : TypeFault → String
  | unsupported cause => "Unsupported type: " ++ cause.message
  | decimal type cause => "Invalid parameters for " ++ type ++ ": " ++ cause.message
  | name text cause => "Invalid name " ++ quoted text ++ ": " ++ cause.message
  | gone target =>
    "Type description unavailable: cyclic reference at " ++ showId target ++ " outlived its target"

def Reason.message : Reason → String
  | expected what got => "must be " ++ what ++ "; got " ++ got
  | type fault => fault.message showId
  | typeGone => "type description unavailable"
  | otherKind kind => "not " ++ kind
  | int32 value => toString value ++ " does not fit a 32-bit int"
  | notFinite => "must be a finite number"
  | noZone => "datetime default must be timezone-aware"
  | uuid text => "invalid UUID " ++ quoted text
  | duration => "duration defaults are not supported; use a union with null and a null default"
  | literal text fault => fault.message text
  | symbol symbols got => "must be one of [" ++ commaJoined symbols ++ "]; got " ++ quoted got
  | unknownField record field => record ++ " has no field " ++ quoted field
  | noValue => "missing value"
  | noDefault => "default value is missing"
  | other text => text

end

/-- A step as it is written in a path. -/
def Segment.text : Segment → String
  | index i => "[" ++ toString i ++ "]"
  | key k => "[" ++ quoted k ++ "]"
  | field name => "." ++ name

/-- The steps of a path, one after another. -/
def Mismatch.pathText (m : Mismatch) : String := String.join (m.path.map Segment.text)

def Mismatch.message (showId : TypeId → String) (m : Mismatch) : String :=
  if m.pathText.isEmpty then m.reason.message showId else m.pathText ++ ": " ++ m.reason.message showId

def SchemaError.message (showId : TypeId → String) : SchemaError → String
  | type fault => fault.message showId
  | invalidDefault field m =>
    "Invalid default for field " ++ field ++ m.pathText ++ ": " ++ m.reason.message showId
  | endlessDefault => "Invalid default: it is a part of itself"

end Avro
