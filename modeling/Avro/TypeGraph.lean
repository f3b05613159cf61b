import Avro.Value

/-!
# Type graphs

A `TypeGraph` describes types that refer to each other, in cycles too. A type is known by its place in the graph, its
`TypeId`: two descriptions that read alike are still two types. An `Edge` leads from one description to another.
A weak edge does not keep its target, so the description there may be gone.
-/

namespace Avro

/-- The identity of a type: its place in the graph. -/
abbrev TypeId := Nat

/-- A reference from one description to another. -/
structure Edge where
  target : TypeId
  /-- Whether the target may be gone. -/
  weak : Bool := false
deriving DecidableEq

/-- Types that have no parts and stand for a primitive type of their own. -/
inductive Basic where
  | null
  | boolean
  | integer
  | float
  | bytes
  | string
  /-- Any value at all; it has a schema only as the values of a JSON object. -/
  | any
deriving DecidableEq

/-- Types that refine a primitive type. -/
inductive Refined where
  | date
  | moment
  | time
  | duration
  | uuid
deriving DecidableEq

/-- A field of a record type. -/
structure Field where
  name : String
  type : Edge
  default : Option Value := none
  doc : Option String := none
  /-- The name that the field has in schemas, if the options ask for it. -/
  otherName : Option String := none

/-- What a type is made of. -/
inductive Shape where
  | basic (kind : Basic)
  | refined (kind : Refined)
  /-- Strings with a name of their own. -/
  | namedString
  /-- One of a list of symbols. A symbol that is listed again counts where it stands first. -/
  | enum (symbols : List String)
  | record (fields : List Field)
  | union (members : List Edge)
  | map (key value : Edge)
  | sequence (element : Edge)
  /-- A decimal number, by its parameters. -/
  | decimal (params : List Int)
  /-- A type that is known only by its name. -/
  | forward (name : String)

/-- The description of a type. -/
structure Descriptor where
  name : String
  /-- The path of the module that declares the type, with dots between its segments. -/
  origin : Option String := none
  doc : Option String := none
  shape : Shape

namespace Descriptor

def isBasic (d : Descriptor) (kind : Basic) : Bool :=
  match d.shape with
  | .basic k => k == kind
  | _ => false

def isRecord (d : Descriptor) : Bool :=
  match d.shape with
  | .record _ => true
  | _ => false

/-- The fields of a record. -/
def fields? (d : Descriptor) : Option (List Field) :=
  match d.shape with
  | .record fs => some fs
  | _ => none

/-- The first field of the name, if the type is a record. -/
def field? (d : Descriptor) (name : String) : Option Field := d.fields?.bind fun fs => fs.find? fun f => f.name == name

end Descriptor

/-- The number of values in the default of a field. -/
def Field.defaultSize (f : Field) : Nat :=
  match f.default with
  | some v => v.size
  | none => 0

/-- Descriptions by their identities. A description that is gone leaves its place empty. -/
structure TypeGraph where
  places : Array (Option Descriptor)

namespace TypeGraph

/-- The number of values in the defaults of a record's fields. -/
def defaultsOf (d? : Option Descriptor) : Nat :=
  match d?.bind Descriptor.fields? with
  | some fs => fs.foldr (fun f n => f.defaultSize + n) 0
  | none => 0

/-- A graph without types. -/
def empty : TypeGraph := ⟨#[]⟩

/-- The number of places, of which all identities are below. -/
def size (g : TypeGraph) : Nat := g.places.size

/-- The description of a type, unless it is gone. -/
def get? (g : TypeGraph) (id : TypeId) : Option Descriptor := g.places[id]?.join

/-- The name of a type; empty if its description is gone. -/
def nameOf (g : TypeGraph) (id : TypeId) : String := ((g.get? id).map Descriptor.name).getD ""

/-- The description at the end of an edge. -/
def target? (g : TypeGraph) (e : Edge) : Option Descriptor := g.get? e.target

/-- A new, empty place. -/
def reserve (g : TypeGraph) : TypeId × TypeGraph := (g.size, ⟨g.places.push none⟩)

/-- Puts a description into a place. -/
def fill (g : TypeGraph) (id : TypeId) (d : Descriptor) : TypeGraph := ⟨g.places.setIfInBounds id (some d)⟩

/-- Adds a description in a place of its own. -/
def insert (g : TypeGraph) (d : Descriptor) : TypeId × TypeGraph := (g.size, ⟨g.places.push (some d)⟩)

@[simp] theorem size_reserve (g : TypeGraph) : g.reserve.2.size = g.size + 1 := by simp [reserve, size]

@[simp] theorem size_fill (g : TypeGraph) (id : TypeId) (d : Descriptor) : (g.fill id d).size = g.size := by
  simp [fill, size]

@[simp] theorem size_insert (g : TypeGraph) (d : Descriptor) : (g.insert d).2.size = g.size + 1 := by
  simp [insert, size]

/-- A new place is empty, and the others hold what they did. -/
theorem get?_reserve (g : TypeGraph) (id : TypeId) : g.reserve.2.get? id = g.get? id := by
  simp only [reserve, get?, Array.getElem?_push]
  split
  · rename_i h
    simp [h]
  · rfl

/-- A place holds what it was filled with, and the others hold what they did. -/
theorem get?_fill (g : TypeGraph) {id : TypeId} (hid : id < g.size) (d : Descriptor) (other : TypeId) :
    (g.fill id d).get? other = if other = id then some d else g.get? other := by
  by_cases h : id = other
  · subst h
    simp [fill, get?, size] at hid ⊢
    simp [hid]
  · have h' : ¬ other = id := fun e => h e.symm
    simp [fill, get?, h, h']

/-- Whether the type is a map from strings to any values, which is stored as the text of a JSON object. -/
def isJsonObject (g : TypeGraph) (d : Descriptor) : Bool :=
  match d.shape with
  | .map key value =>
    match g.target? key, g.target? value with
    | some k, some v => k.isBasic .string && v.isBasic .any
    | _, _ => false
  | _ => false

/-- Whether the type is a sequence of JSON objects, which is stored as the text of a JSON array. -/
def isJsonArray (g : TypeGraph) (d : Descriptor) : Bool :=
  match d.shape with
  | .sequence element =>
    match g.target? element with
    | some e => g.isJsonObject e
    | none => false
  | _ => false

/-- The number of values in all defaults of the graph's fields. -/
def defaultsSize (g : TypeGraph) : Nat := g.places.toList.foldr (fun d? n => defaultsOf d? + n) 0

end TypeGraph
end Avro
