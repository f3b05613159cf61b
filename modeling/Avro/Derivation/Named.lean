import Avro.Derivation.Basic
import Avro.Text.Paragraph

/-!
# Types that end a cycle and types that do not

A named type is defined once and referred to by its name from then on, in its own definition too, so it ends a cycle.
A composite type without a name is written out wherever it occurs; if it occurs in itself, with no named type
between, it has no schema.
-/

namespace Avro

/-- What the definition of a named type begins with. -/
structure Header extends Heading where
  doc : Option String
deriving DecidableEq

/-- The name by which references know a definition. -/
def Heading.fullName (h : Heading) : String := Name.full h.ns h.name

/-- What stands at an occurrence of a named type. -/
inductive Occurrence (α : Type) where
  /-- The definition, at the first. -/
  | definition (a : α)
  /-- The full name, at all others. -/
  | reference (fullName : String)

namespace Setting

/-- The namespace of a type, which has to be valid. -/
def namespaceOf (cx : Setting) (d : Descriptor) : Except TypeFault (Option String) :=
  match Name.chosenNs cx.givenNs cx.options.namespaceMode d.origin with
  | none => .ok none
  | some ns =>
    match Name.checkNamespace ns with
    | .ok _ => .ok (some ns)
    | .error f => .error f

/-- The documentation of a type: the first paragraph. -/
def typeDoc (cx : Setting) (doc : Option String) : Option String :=
  if cx.options.noDoc then none else doc.bind Text.firstParagraph

/-- The documentation of a field, as it is declared. -/
def fieldDoc (cx : Setting) (doc : Option String) : Option String := if cx.options.noDoc then none else doc

end Setting

namespace Derive

/-- Lets a named type have its name in the registry. -/
def claim (id : TypeId) (fullName : String) : Derive Claim := do
  let s ← get
  let (c, registry) ← ofFault (s.registry.claim id fullName)
  set { s with registry }
  pure c

/-- Defines a named type by `body` at its first occurrence. No composite type is pending inside the definition. -/
def named {α : Type} (cx : Setting) (id : TypeId) (d : Descriptor) (body : Header → Derive α) :
    Derive (Occurrence α) := do
  ofFault (Name.check d.name)
  let ns ← ofFault (cx.namespaceOf d)
  let heading : Heading := ⟨d.name, ns⟩
  match ← claim id heading.fullName with
  | .known fullName => pure (.reference fullName)
  | .fresh => .definition <$> withPending [] (body ⟨heading, cx.typeDoc d.doc⟩)

/-- The schema at an occurrence of a named type. -/
def namedSchema (cx : Setting) (id : TypeId) (d : Descriptor) (body : Header → Derive Schema) : Derive Schema := do
  match ← named cx id d body with
  | .definition s => pure s
  | .reference fullName => pure (.reference fullName)

/-- Derives the parts of a composite type without a name; fails inside its own parts. -/
def unnamed {α : Type} (id : TypeId) (d : Descriptor) (body : Derive α) : Derive α := do
  let s ← get
  if id ∈ s.pending then throw (.type (.unsupported (.partOfItself d.name)))
  else withPending (id :: s.pending) body

end Derive
end Avro
