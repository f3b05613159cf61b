import Avro.Error.Basic
import Avro.Name
import Avro.Registry
import Avro.Schema.Basic

/-!
# Derivations

A schema is derived from a type in a `Setting` that stays the same, while `Progress` is made: named types are defined,
and composite types without a name are in progress while their parts are derived. `Derive` is a step of a derivation.
What is defined stays defined when a step fails. `Encode` is the encoding of a default, which only reads.

Both have a third outcome beside success and failure, `none`: the step does not end.
-/

namespace Avro

/-- What stays the same during a derivation. -/
structure Setting where
  graph : TypeGraph
  options : Options := {}
  /-- The namespace for all named types, in place of those that their origins give. -/
  givenNs : Option String := none

/-- The setting with a namespace for all named types; an empty one stands for none. -/
def Setting.of (graph : TypeGraph) (options : Options) (ns : Option String) : Setting :=
  ⟨graph, options, Name.nonempty? ns⟩

/-- What has been done in a derivation. -/
structure Progress where
  registry : Registry := {}
  /-- The composite types without a name whose parts are being derived, back to the last named type. -/
  pending : List TypeId := []
deriving DecidableEq

/-- A step of a derivation. -/
abbrev Derive (α : Type) := ExceptT SchemaError (StateT Progress Option) α

/-- The encoding of a default. -/
abbrev Encode (α : Type) := ExceptT Mismatch Option α

namespace Encode

/-- The encoding that does not end. -/
def endless {α : Type} : Encode α := ExceptT.mk none

/-- What fits or does not fit. -/
def ofExcept {α : Type} (r : Except Mismatch α) : Encode α := ExceptT.mk (some r)

/-- The outcome as a value: `none` if there is no end to it. -/
def outcome {α : Type} (e : Encode α) : Option (Except Mismatch α) := e.run

/-- A mismatch in a part of a value, as one of the value. -/
def within {α : Type} (s : Segment) (e : Encode α) : Encode α := e.adapt fun m => m.within s

end Encode

namespace Derive

/-- The step that does not end. -/
def endless {α : Type} : Derive α := ExceptT.mk fun _ => none

/-- Fails because of a type. -/
def ofFault {α : Type} : Except TypeFault α → Derive α
  | .ok a => pure a
  | .error f => throw (.type f)

/-- The outcome of an encoding, which makes no progress. -/
def attempt {α : Type} (e : Encode α) : Derive (Except Mismatch α) :=
  ExceptT.mk fun s => e.outcome.map fun r => (.ok r, s)

/-- The encoding of the default of a field. -/
def ofEncode {α : Type} (field : String) (e : Encode α) : Derive α := do
  match ← attempt e with
  | .ok a => pure a
  | .error m => throw (.invalidDefault field m)

/-- The step with other composites pending. Those that were pending before are so again behind it, even if it fails. -/
def withPending {α : Type} (pending : List TypeId) (step : Derive α) : Derive α :=
  ExceptT.mk fun s => (step.run { s with pending }).map fun r => (r.1, { r.2 with pending := s.pending })

/-- Runs a step from some progress. -/
def runFrom {α : Type} (step : Derive α) (s : Progress) : Option (Except SchemaError α × Progress) := step.run s

/-- The result of a derivation from the start; one without an end has no schema. -/
def result {α : Type} (step : Derive α) : Except SchemaError α :=
  match step.runFrom {} with
  | some (r, _) => r
  | none => .error .endlessDefault

end Derive

/-- How a type is treated that is a part of another. -/
structure Parts where
  /-- Derives the schema of the type. -/
  schema : TypeId → Derive Schema
  /-- Encodes a default of the type. -/
  encode : TypeId → Value → Encode Json

end Avro
