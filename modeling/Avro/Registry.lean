import Avro.Fault

/-!
# The registry of named types

While a schema is put together the registry knows which named types are defined, and under which full names. A type is
defined where it first claims its name, and stands by that name wherever it occurs again. Two types cannot have one
name.
-/

namespace Avro

/-- The named types that are defined, in the order of their definitions. -/
structure Registry where
  entries : List (TypeId × String) := []
deriving DecidableEq

/-- What comes of an occurrence of a named type. -/
inductive Claim where
  /-- The type is new, has the name from now on, and is to be defined. -/
  | fresh
  /-- The type is defined under this name. -/
  | known (fullName : String)
deriving DecidableEq

namespace Registry

/-- The name under which a type is defined. -/
def nameOf? (r : Registry) (id : TypeId) : Option String := (r.entries.find? fun e => e.1 == id).map Prod.snd

/-- The type that is defined under a name. -/
def ownerOf? (r : Registry) (fullName : String) : Option TypeId :=
  (r.entries.find? fun e => e.2 == fullName).map Prod.fst

/-- Lets a type have the name if it is new. A refusal changes nothing. -/
def claim (r : Registry) (id : TypeId) (fullName : String) : Except TypeFault (Claim × Registry) :=
  match r.nameOf? id with
  | some name => .ok (.known name, r)
  | none =>
    match r.ownerOf? fullName with
    | some _ => .error (.name fullName .taken)
    | none => .ok (.fresh, ⟨r.entries ++ [(id, fullName)]⟩)

/-- A type that is defined keeps its name. -/
theorem claim_of_nameOf? {r : Registry} {id : TypeId} {known : String} (h : r.nameOf? id = some known)
    (fullName : String) : r.claim id fullName = .ok (.known known, r) := by simp [claim, h]

/-- The number of types that are defined. -/
def size (r : Registry) : Nat := r.entries.length

def isEmpty (r : Registry) : Bool := r.entries.isEmpty

end Registry
end Avro
