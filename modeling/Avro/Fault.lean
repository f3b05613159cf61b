import Avro.Decimal
import Avro.TypeGraph

/-!
# What is wrong with a type

A `TypeFault` is the reason why a type has no schema, apart from the defaults of its fields.
-/

namespace Avro

/-- What is wrong with a name. -/
inductive NameFault where
  /-- It is not a letter or underscore followed by letters, digits and underscores. -/
  | grammar
  /-- A segment between its dots is no name. -/
  | segment (text : String)
  /-- Another type has it. -/
  | taken
  /-- Another field of the record has it. -/
  | repeatedField (record : String)
  /-- It is the name of an enumeration that has no symbols. -/
  | noSymbols
  /-- A type that is known only by its name has an empty one. -/
  | nameless
deriving DecidableEq

/-- What is wrong with the kind of a type. -/
inductive Unsupported where
  /-- No rule takes care of a type of this description. -/
  | noRule (description : String)
  /-- The rule that was asked takes care of types of another kind. -/
  | otherKind (name : String)
  /-- The type is a part of itself with no named type between. -/
  | partOfItself (name : String)
  /-- The union is among its own members. -/
  | memberOfItself (name : String)
  /-- The keys of the map are not strings. -/
  | mapKeys (map key : String)
  /-- Some other reason, which a rule from outside gives in words. -/
  | other (text : String)
deriving DecidableEq

/-- Why a type has no schema. -/
inductive TypeFault where
  | unsupported (cause : Unsupported)
  | decimal (type : String) (cause : DecimalFault)
  | name (text : String) (cause : NameFault)
  /-- The description at the end of an edge is gone. -/
  | gone (target : TypeId)
deriving DecidableEq

/-- The description of a type, which an edge that leads nowhere lacks. -/
def TypeGraph.follow (g : TypeGraph) (e : Edge) : Except TypeFault Descriptor :=
  match g.target? e with
  | some d => .ok d
  | none => .error (.gone e.target)

end Avro
