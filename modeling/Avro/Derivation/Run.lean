import Avro.RuleTable

/-!
# Running a derivation

The rules of a table are applied to the types of a graph, each rule to the parts of the types it takes care of. A type
graph has cycles, so the recursion is bounded: by `depthBound` for schemas and by `encodeBound` for defaults. What a
bound cuts off has no end: a derivation opens each named type once and each composite type once between two named
types, and the encoding of a default goes down into a value or on to the default of a field.
-/

namespace Avro.RuleTable

variable (t : RuleTable) (cx : Setting)

/-- Encodes a default of a type, at most so many types deep. -/
def encodeWithin : Nat → TypeId → Value → Encode Json
  | 0, _, _ => Encode.endless
  | n + 1, id, v =>
    match cx.graph.get? id with
    | none => throw (.here .typeGone)
    | some d =>
      match t.find cx.graph d with
      | .error f => throw (.here (.type f))
      | .ok rule => rule.encode cx (encodeWithin n) d v

/-- How deep the encoding of a default may go: two types for each value that it can meet. -/
def encodeBound (g : TypeGraph) (v : Value) : Nat := 2 * (v.size + g.defaultsSize) + 2

/-- Encodes a default of a type. -/
def encode (id : TypeId) (v : Value) : Encode Json := t.encodeWithin cx (encodeBound cx.graph v) id v

/-- Derives the schema of a type, at most so many types deep, with a way to encode defaults. -/
def schemaWithin (encode : TypeId → Value → Encode Json) : Nat → TypeId → Derive Schema
  | 0, _ => Derive.endless
  | n + 1, id =>
    match cx.graph.get? id with
    | none => throw (.type (.gone id))
    | some d => do
      let rule ← Derive.ofFault (t.find cx.graph d)
      rule.schema cx ⟨schemaWithin encode n, encode⟩ id d

/-- How deep a derivation may go: all types of the graph for each named type that is open, and once more. -/
def depthBound (g : TypeGraph) : Nat := (g.size + 1) * (g.size + 2)

/-- Derives the schema of a type. -/
def schema (id : TypeId) : Derive Schema := t.schemaWithin cx (t.encode cx) (depthBound cx.graph) id

/-- How rules treat the parts of types. -/
def parts : Parts := ⟨t.schema cx, t.encode cx⟩

/-- The schema of a type and of all that it refers to. A given namespace has to be valid, whether or not it is used. -/
def derive (id : TypeId) : Except SchemaError Schema :=
  Derive.result do
    match cx.givenNs with
    | some ns => Derive.ofFault (Name.checkNamespace ns)
    | none => pure ()
    t.schema cx id

end Avro.RuleTable
