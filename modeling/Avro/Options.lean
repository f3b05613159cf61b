/-!
# Options

What a schema shows and how its text is laid out is set by `Options`, a record of independent choices. A `Flag` names
one choice that differs from the default; `Options.enable` makes it. Turning automatic namespaces off is final: no flag
turns them on again.
-/

namespace Avro

/-- Unit of times of day and of moments. -/
inductive TimePrecision where
  | micros
  | millis
deriving DecidableEq

/-- Where the namespace of a type comes from when none is given. -/
inductive NamespaceMode where
  /-- The first segment of the path of the module that declares the type. -/
  | topLevel
  /-- The whole path of that module. -/
  | fullModule
  /-- There is none. -/
  | disabled
deriving DecidableEq

/-- The primitive type that holds a JSON document. -/
inductive JsonEncoding where
  | bytes
  | string
deriving DecidableEq

/-- How a finished schema is laid out as text. -/
structure OutputFormat where
  pretty : Bool := false
  sortKeys : Bool := false
  trailingNewline : Bool := false
deriving DecidableEq

/-- The choices of one compilation. -/
structure Options where
  /-- Integers have 32 bits. -/
  int32 : Bool := false
  /-- Floating-point numbers have 32 bits. -/
  float32 : Bool := false
  timePrecision : TimePrecision := .micros
  namespaceMode : NamespaceMode := .topLevel
  /-- Each field of a record must have a default. -/
  defaultsMandatory : Bool := false
  jsonEncoding : JsonEncoding := .bytes
  /-- Documentation is left out. -/
  noDoc : Bool := false
  /-- A field that has a second name goes by that name. -/
  useFieldAlias : Bool := false
  pretty : Bool := false
  sortKeys : Bool := false
  trailingNewline : Bool := false
deriving DecidableEq

/-- One choice that differs from the default. -/
inductive Flag where
  | noAutoNamespace
  | autoNamespaceModule
  | milliseconds
  | float32
  | int32
  | defaultsMandatory
  | noDoc
  | jsonAsString
  | jsonIndent2
  | useFieldAlias
  | jsonSortKeys
  | jsonAppendNewline
deriving DecidableEq

namespace TimePrecision

def all : List TimePrecision := [micros, millis]

def name : TimePrecision → String
  | micros => "micros"
  | millis => "millis"

def ofName? (s : String) : Option TimePrecision := all.find? fun p => p.name == s

end TimePrecision

namespace NamespaceMode

def all : List NamespaceMode := [topLevel, fullModule, disabled]

def name : NamespaceMode → String
  | topLevel => "top-level"
  | fullModule => "full-module"
  | disabled => "disabled"

def ofName? (s : String) : Option NamespaceMode := all.find? fun m => m.name == s

end NamespaceMode

namespace JsonEncoding

def all : List JsonEncoding := [bytes, string]

def name : JsonEncoding → String
  | bytes => "bytes"
  | string => "string"

def ofName? (s : String) : Option JsonEncoding := all.find? fun e => e.name == s

end JsonEncoding

namespace Flag

def all : List Flag :=
  [noAutoNamespace, autoNamespaceModule, milliseconds, float32, int32, defaultsMandatory, noDoc, jsonAsString,
   jsonIndent2, useFieldAlias, jsonSortKeys, jsonAppendNewline]

/-- The name by which settings list the flag. -/
def name : Flag → String
  | noAutoNamespace => "NO_AUTO_NAMESPACE"
  | autoNamespaceModule => "AUTO_NAMESPACE_MODULE"
  | milliseconds => "MILLISECONDS"
  | float32 => "FLOAT_32"
  | int32 => "INT_32"
  | defaultsMandatory => "DEFAULTS_MANDATORY"
  | noDoc => "NO_DOC"
  | jsonAsString => "JSON_AS_STRING"
  | jsonIndent2 => "JSON_INDENT_2"
  | useFieldAlias => "USE_FIELD_ALIAS"
  | jsonSortKeys => "JSON_SORT_KEYS"
  | jsonAppendNewline => "JSON_APPEND_NEWLINE"

/-- The flag of a name. One flag has a second name. -/
def ofName? (s : String) : Option Flag :=
  if s == "LOGICAL_JSON_STRING" then some jsonAsString else all.find? fun f => f.name == s

end Flag

namespace Options

/-- The options with the choice of the flag made. -/
def enable (o : Options) : Flag → Options
  | .noAutoNamespace => { o with namespaceMode := .disabled }
  | .autoNamespaceModule => if o.namespaceMode = .disabled then o else { o with namespaceMode := .fullModule }
  | .milliseconds => { o with timePrecision := .millis }
  | .float32 => { o with float32 := true }
  | .int32 => { o with int32 := true }
  | .defaultsMandatory => { o with defaultsMandatory := true }
  | .noDoc => { o with noDoc := true }
  | .jsonAsString => { o with jsonEncoding := .string }
  | .jsonIndent2 => { o with pretty := true }
  | .useFieldAlias => { o with useFieldAlias := true }
  | .jsonSortKeys => { o with sortKeys := true }
  | .jsonAppendNewline => { o with trailingNewline := true }

/-- The options with the choices of several flags made. -/
def enableAll (o : Options) (flags : List Flag) : Options := flags.foldl enable o

/-- The options that flags alone choose. -/
def ofFlags (flags : List Flag) : Options := enableAll {} flags

/-- The part of the options that lays out the text. -/
def output (o : Options) : OutputFormat := ⟨o.pretty, o.sortKeys, o.trailingNewline⟩

/-- Whether times count milliseconds. -/
def inMillis (o : Options) : Bool := o.timePrecision == .millis

end Options
end Avro
