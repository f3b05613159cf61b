import Avro.Compiler
import Avro.Error.Message
import Avro.Toml.Reader

/-!
# Configurations

A `Config` is what a file of settings says: options, flags that are set on top of them, and a namespace for all named
types. What a file does not say has its default; what it says beyond that is refused.
-/

namespace Avro

namespace Options

/-- A change of options by the value of one of their keys. -/
abbrev Change := Options → Document → Option Options

/-- The change of options by one of a set of choices. -/
def byChoice {α : Type} (format : Document.Format) (ofName? : String → Option α) (set : Options → α → Options) :
    Change := fun o d => (d.choice? format ofName?).map (set o)

/-- The change of options by a truth value. -/
def byBool (set : Options → Bool → Options) : Change := fun o d => d.bool?.map (set o)

/-- The keys of options, in order, with what their values change. -/
def keys (format : Document.Format) : List (String × Change) :=
  [("int_32", byBool fun o b => { o with int32 := b }),
   ("float_32", byBool fun o b => { o with float32 := b }),
   ("time_precision", byChoice format TimePrecision.ofName? fun o p => { o with timePrecision := p }),
   ("namespace_mode", byChoice format NamespaceMode.ofName? fun o m => { o with namespaceMode := m }),
   ("defaults_mandatory", byBool fun o b => { o with defaultsMandatory := b }),
   ("json_encoding", byChoice format JsonEncoding.ofName? fun o e => { o with jsonEncoding := e }),
   ("no_doc", byBool fun o b => { o with noDoc := b }),
   ("use_field_alias", byBool fun o b => { o with useFieldAlias := b }),
   ("pretty", byBool fun o b => { o with pretty := b }),
   ("sort_keys", byBool fun o b => { o with sortKeys := b }),
   ("trailing_newline", byBool fun o b => { o with trailingNewline := b })]

/-- The options with the entries of a table. -/
def readEntries? (format : Document.Format) (o : Options) : List (String × Document) → Option Options
  | [] => some o
  | (k, d) :: es =>
    match (keys format).find? fun key => key.1 == k with
    | none => none
    | some key => (key.2 o d).bind fun o => readEntries? format o es

/-- The options with values in the order of their keys, as long as there are both. -/
def readItems? (o : Options) : List (String × Change) → List Document → Option Options
  | key :: ks, d :: ds => (key.2 o d).bind fun o => readItems? o ks ds
  | _, _ => some o

/-- Whether a list of values may be this long. -/
def allowsItems : Document.Format → List Document → Bool
  | .json, ds => ds.length ≤ (keys .json).length
  | .toml, _ => true

/-- The options that a document says: a table, or a list of values in the order of the keys. -/
def ofDocument? (format : Document.Format) : Document → Option Options
  | .table es => readEntries? format {} es
  | .list ds => if allowsItems format ds then readItems? {} (keys format) ds else none
  | _ => none

end Options

/-- What a file of settings says. -/
structure Config where
  /-- The namespace for all named types. -/
  ns : Option String := none
  /-- Set on top of the options. -/
  flags : List Flag := []
  options : Options := {}
deriving DecidableEq

/-- Why a text is no configuration. -/
inductive ConfigError where
  /-- It is no document, or not one with these settings. -/
  | malformed
  /-- Its namespace is none. -/
  | invalidNs (fault : TypeFault)
deriving DecidableEq

def ConfigError.message (showId : TypeId → String) : ConfigError → String
  | malformed => "TOML parse error"
  | invalidNs fault => "Invalid configuration: namespace: " ++ fault.message showId

namespace Config

/-- The configuration with the entries of a table. -/
def readEntries? (c : Config) : List (String × Document) → Option Config
  | [] => some c
  | ("namespace", d) :: es => d.text?.bind fun s => readEntries? { c with ns := some s } es
  | ("flags", d) :: es =>
    (d.items? (Document.choice? .toml Flag.ofName?)).bind fun fs => readEntries? { c with flags := fs } es
  | ("options", d) :: es => (Options.ofDocument? .toml d).bind fun o => readEntries? { c with options := o } es
  | _ :: _ => none

/-- The configuration that a document says. -/
def ofDocument? : Document → Option Config
  | .table es => readEntries? {} es
  | _ => none

/-- Refuses a namespace that is none. -/
def check (c : Config) : Except ConfigError Unit :=
  match c.ns with
  | none => .ok ()
  | some ns =>
    match Name.checkNamespace ns with
    | .ok _ => .ok ()
    | .error f => .error (.invalidNs f)

/-- Reads a configuration. -/
def read (text : String) : Except ConfigError Config :=
  match (Toml.read? text).bind ofDocument? with
  | none => .error .malformed
  | some c =>
    match c.check with
    | .ok _ => .ok c
    | .error e => .error e

/-- The options with the flags set. -/
def effectiveOptions (c : Config) : Options := c.options.enableAll c.flags

/-- The namespace for all named types; an empty one stands for none. -/
def givenNs (c : Config) : Option String := Name.nonempty? c.ns

end Config

/-- The text of the schema of a type under a configuration. -/
def Compiler.compileWith (c : Compiler) (config : Config) (g : TypeGraph) (type : TypeId) :
    Except SchemaError String × Compiler :=
  c.compile g type config.givenNs config.effectiveOptions

end Avro
