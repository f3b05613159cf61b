import Avro.Json.Basic

/-!
# Schemas

A `Schema` is a tree: primitive types, some of them refined by a logical type, named definitions of records,
enumerations and fixed-size values, collections, unions, and references to definitions by their full names.
-/

namespace Avro

/-- The types that schemas are built from. -/
inductive Primitive where
  | null
  | boolean
  | int
  | long
  | float
  | double
  | bytes
  | string
deriving DecidableEq

namespace Primitive

def all : List Primitive := [null, boolean, int, long, float, double, bytes, string]

def name : Primitive → String
  | null => "null"
  | boolean => "boolean"
  | int => "int"
  | long => "long"
  | float => "float"
  | double => "double"
  | bytes => "bytes"
  | string => "string"

def ofName? (s : String) : Option Primitive := all.find? fun p => p.name == s

end Primitive

/-- The name of a definition and its namespace. -/
structure Heading where
  name : String
  ns : Option String := none
deriving DecidableEq

/-- A field of a record schema, over the type `σ` of schemas. -/
structure SchemaField (σ : Type) where
  name : String
  type : σ
  doc : Option String := none
  default : Option Json := none

/-- A schema. -/
inductive Schema where
  | primitive (p : Primitive)
  /-- A primitive type with the name of its logical type and further attributes in the order of the text. -/
  | logical (base : Primitive) (logicalType : String) (attributes : List (String × Json))
  /-- A string with a name of its own, which is no definition. -/
  | namedString (fullName : String)
  | record (heading : Heading) (doc : Option String) (fields : List (SchemaField Schema))
  /-- An enumeration with the symbol that a reader takes for one it does not know. -/
  | enum (heading : Heading) (doc : Option String) (symbols : List String) (default : String)
  | fixed (heading : Heading) (size : Nat) (logicalType : Option String)
  | map (values : Schema)
  | array (items : Schema)
  | union (members : List Schema)
  | reference (fullName : String)

namespace Schema

instance : Inhabited Schema := ⟨primitive .null⟩

/-- A primitive type with a logical type that has no attributes. -/
def refined (base : Primitive) (logicalType : String) : Schema := logical base logicalType []

end Schema
end Avro
