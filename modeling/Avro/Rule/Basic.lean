import Avro.Derivation.Basic

/-!
# Rules

A `Rule` takes care of one family of types: it says which types they are, derives their schemas and encodes their
defaults. The parts of a type are left to the functions that a rule is given.
-/

namespace Avro

/-- How one family of types is treated. -/
structure Rule where
  name : String
  /-- Whether the rule takes care of the type. -/
  handles : TypeGraph → Descriptor → Bool
  /-- The schema of a type. -/
  schema : Setting → Parts → TypeId → Descriptor → Derive Schema
  /-- The encoding of a default of a type, by means of the encoding of defaults of its parts. -/
  encode : Setting → (TypeId → Value → Encode Json) → Descriptor → Value → Encode Json

namespace Rule

/-- Refuses a type of a kind that the rule does not take care of. -/
def refuse (d : Descriptor) : Derive Schema := throw (.type (.unsupported (.otherKind d.name)))

/-- Refuses a default. -/
def mismatch (r : Reason) : Except Mismatch Json := .error (.here r)

/-- Refuses a default of another kind than is expected. -/
def mustBe (what : String) (got : Value) : Except Mismatch Json := .error (.expected what got)

end Rule
end Avro
