import Avro.Json.Printer
import Avro.Json.Sorted
import Avro.Options
import Avro.Schema.Basic

/-!
# The document of a schema

`Schema.toJson` is the JSON form of a schema. The keys of an object have one order: `type`, `name`, `namespace`, `doc`,
the body, `logicalType` with its attributes, `default`. `Schema.render` is its text in one of the layouts.
-/

namespace Avro

/-- An entry that is left out if there is no text. -/
def optionalEntry (key : String) : Option String → Json.Entries
  | some s => [(key, .str s)]
  | none => []

/-- The entries that begin a definition. -/
def Heading.entries (kind : String) (h : Heading) : Json.Entries :=
  [("type", .str kind), ("name", .str h.name)] ++ optionalEntry "namespace" h.ns

namespace Schema

mutual

/-- The JSON form of a schema. -/
def toJson : Schema → Json
  | primitive p => .str p.name
  | logical base logicalType attributes =>
    .obj (("type", .str base.name) :: ("logicalType", .str logicalType) :: attributes)
  | namedString fullName => .obj [("type", .str "string"), ("namedString", .str fullName)]
  | record heading doc fields =>
    .obj (heading.entries "record" ++ optionalEntry "doc" doc ++ [("fields", .arr (fieldsToJson fields))])
  | enum heading doc symbols default =>
    .obj (heading.entries "enum" ++ optionalEntry "doc" doc
      ++ [("symbols", .arr (symbols.map .str)), ("default", .str default)])
  | fixed heading size logicalType =>
    .obj (heading.entries "fixed" ++ [("size", .int size)] ++ optionalEntry "logicalType" logicalType)
  | map values => .obj [("type", .str "map"), ("values", toJson values)]
  | array items => .obj [("type", .str "array"), ("items", toJson items)]
  | union members => .arr (membersToJson members)
  | reference fullName => .str fullName

def membersToJson : List Schema → List Json
  | [] => []
  | s :: ss => toJson s :: membersToJson ss

def fieldsToJson : List (SchemaField Schema) → List Json
  | [] => []
  | ⟨name, type, doc, default⟩ :: fs =>
    .obj ([("name", .str name), ("type", toJson type)] ++ optionalEntry "doc" doc
      ++ (match default with
        | some v => [("default", v)]
        | none => []))
    :: fieldsToJson fs

end

/-- The JSON value that a layout writes. Sorting the keys also leaves each key of an object once. -/
def document (s : Schema) (format : OutputFormat) : Json :=
  if format.sortKeys then s.toJson.distinct.sorted else s.toJson

/-- The text of the schema. -/
def render (s : Schema) (format : OutputFormat) : String :=
  let v := s.document format
  let body := if format.pretty then v.pretty else v.compact
  if format.trailingNewline then body ++ "\n" else body

end Schema
end Avro
