import Avro.Derivation.Named
import Avro.Derivation.Union

/-!
# Fields of records

The schema of a field is that of its type. If the field has a default, the default is encoded for the type; where the
type is a union, the member that the default belongs to comes first.
-/

namespace Avro

/-- The name that a field has in schemas. -/
def Setting.fieldName (cx : Setting) (f : Field) : String :=
  match f.otherName with
  | some other => if cx.options.useFieldAlias then other else f.name
  | none => f.name

namespace Derive

/-- The schema of a field's type, and the default as the schema shows it. -/
def fieldType (cx : Setting) (parts : Parts) (name : String) (f : Field) (d : Descriptor) :
    Derive (Schema × Option Json) := do
  match f.default, d.shape with
  | some v, .union members =>
    let members ← ofFault (cx.graph.flatMembers members)
    let choice ← ofEncode name (Encode.choose cx.graph parts.encode members v)
    let schema ← unionOf parts choice.order
    pure (schema, some choice.encoded)
  | some v, _ =>
    let schema ← parts.schema f.type.target
    let encoded ← ofEncode name (parts.encode f.type.target v)
    pure (schema, some encoded)
  | none, _ =>
    let schema ← parts.schema f.type.target
    pure (schema, none)

/-- The schema of a field. -/
def field (cx : Setting) (parts : Parts) (f : Field) : Derive (SchemaField Schema) := do
  let name := cx.fieldName f
  ofFault (Name.check name)
  if cx.options.defaultsMandatory && f.default.isNone then throw (.invalidDefault name (.here .noDefault))
  let d ← ofFault (cx.graph.follow f.type)
  let (type, default) ← fieldType cx parts name f d
  pure { name, type, doc := cx.fieldDoc f.doc, default }

/-- The schemas of the fields of a record, whose names differ from each other and from those in `taken`. -/
def fields (cx : Setting) (parts : Parts) (record : String) (taken : List String) :
    List Field → Derive (List (SchemaField Schema))
  | [] => pure []
  | f :: fs => do
    let s ← field cx parts f
    if s.name ∈ taken then throw (.type (.name s.name (.repeatedField record)))
    let ss ← fields cx parts record (s.name :: taken) fs
    pure (s :: ss)

end Derive
end Avro
