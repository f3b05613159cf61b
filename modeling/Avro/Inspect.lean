import Avro.Cache
import Avro.RuleTable
import Avro.Text.Quoted

/-!
# Inspection texts

The texts by which a table of rules, options and the key of a cached document show what they hold.
-/

namespace Avro

open Text (quoted)

/-- A value of a structure: its name, and its fields by their names. -/
def inspectFields (name : String) (fields : List (String × String)) : String :=
  name ++ " \x7b " ++ ", ".intercalate (fields.map fun f => f.1 ++ ": " ++ f.2) ++ " \x7d"

/-- A value that may be missing. -/
def inspectOption (s : Option String) : String :=
  match s with
  | some text => "Some(" ++ quoted text ++ ")"
  | none => "None"

def TimePrecision.inspect : TimePrecision → String
  | micros => "Micros"
  | millis => "Millis"

def NamespaceMode.inspect : NamespaceMode → String
  | topLevel => "TopLevel"
  | fullModule => "FullModule"
  | disabled => "Disabled"

def JsonEncoding.inspect : JsonEncoding → String
  | bytes => "Bytes"
  | string => "String"

def inspectBool (b : Bool) : String := if b then "true" else "false"

def Options.inspect (o : Options) : String :=
  inspectFields "Options"
    [("int_32", inspectBool o.int32), ("float_32", inspectBool o.float32),
     ("time_precision", o.timePrecision.inspect), ("namespace_mode", o.namespaceMode.inspect),
     ("defaults_mandatory", inspectBool o.defaultsMandatory), ("json_encoding", o.jsonEncoding.inspect),
     ("no_doc", inspectBool o.noDoc), ("use_field_alias", inspectBool o.useFieldAlias),
     ("pretty", inspectBool o.pretty), ("sort_keys", inspectBool o.sortKeys),
     ("trailing_newline", inspectBool o.trailingNewline)]

/-- The key, with the type by its name and the text of its identity. -/
def CacheKey.inspect (g : TypeGraph) (showId : TypeId → String) (k : CacheKey) : String :=
  inspectFields "CacheKey"
    [("ty", g.nameOf k.type ++ "@" ++ showId k.type), ("options", k.options.inspect),
     ("namespace", inspectOption k.givenNs)]

def RuleTable.inspect (t : RuleTable) : String :=
  let ranks := t.ranks.map fun r => "(" ++ toString r.1 ++ ", " ++ quoted r.2 ++ ")"
  inspectFields "DispatchTable" [("builders", "[" ++ ", ".intercalate ranks ++ "]")]

end Avro
