import Avro.Cache
import Avro.Derivation.Run
import Avro.Schema.Document

/-!
# Compilers

A `Compiler` is a table of rules with a cache. It turns a type into the text of its schema.
-/

namespace Avro

/-- A table of rules and the documents that it has produced. -/
structure Compiler where
  table : RuleTable := .standard
  cache : Cache String := {}

namespace Compiler

/-- The schema of a type. -/
def schema (c : Compiler) (g : TypeGraph) (type : TypeId) (ns : Option String) (o : Options) :
    Except SchemaError Schema :=
  c.table.derive (Setting.of g o ns) type

/-- The text of the schema of a type, without the cache. -/
def text (c : Compiler) (g : TypeGraph) (type : TypeId) (ns : Option String) (o : Options) :
    Except SchemaError String :=
  (c.schema g type ns o).map fun s => s.render o.output

/-- The text of the schema of a type, from the cache if it is there. -/
def compile (c : Compiler) (g : TypeGraph) (type : TypeId) (ns : Option String) (o : Options) :
    Except SchemaError String × Compiler :=
  let (r, cache) := c.cache.getOrBuild (.of type ns o) fun _ => c.text g type ns o
  (r, { c with cache })

end Compiler
end Avro
