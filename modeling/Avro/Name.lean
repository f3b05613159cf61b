import Avro.Fault
import Avro.Options

/-!
# Names and namespaces

A name is a letter or underscore followed by letters, digits and underscores; a namespace is a list of names with dots
between them. A type with a namespace is known by its full name, the two joined by a dot.
-/

namespace Avro.Name

/-- A letter of ASCII or an underscore. -/
def isStart (c : Char) : Bool :=
  let n := c.toNat
  (0x41 ≤ n && n ≤ 0x5A) || (0x61 ≤ n && n ≤ 0x7A) || n == 0x5F

/-- A letter or digit of ASCII or an underscore. -/
def isPart (c : Char) : Bool := isStart c || (0x30 ≤ c.toNat && c.toNat ≤ 0x39)

/-- Whether the characters are a name. -/
def isName : List Char → Bool
  | [] => false
  | c :: cs => isStart c && cs.all isPart

/-- The segments of a dotted text. There is always one, which may be empty. -/
def segments : List Char → List (List Char)
  | [] => [[]]
  | '.' :: r => [] :: segments r
  | c :: r =>
    match segments r with
    | [] => [[c]]
    | s :: ss => (c :: s) :: ss

theorem segments_ne_nil (s : List Char) : segments s ≠ [] := by fun_cases segments s <;> simp

/-- Refuses what is no name. -/
def check (name : String) : Except TypeFault Unit :=
  if isName name.toList then .ok () else .error (.name name .grammar)

/-- Refuses what is no namespace, for its first segment that is no name. The empty namespace stands for none. -/
def checkNamespace (ns : String) : Except TypeFault Unit :=
  if ns.isEmpty then .ok ()
  else
    match (segments ns.toList).find? fun s => !isName s with
    | none => .ok ()
    | some s => .error (.name ns (.segment (String.ofList s)))

/-- A text that says something. -/
def nonempty? : Option String → Option String
  | some s => if s.isEmpty then none else some s
  | none => none

/-- The name with its namespace, if there is one, before a dot. -/
def full (ns : Option String) (name : String) : String :=
  match nonempty? ns with
  | some n => n ++ "." ++ name
  | none => name

/-- The part of a path that the mode takes for a namespace. -/
def ofOrigin (mode : NamespaceMode) (origin : String) : Option String :=
  match mode with
  | .disabled => none
  | .topLevel => nonempty? ((segments origin.toList).head?.map String.ofList)
  | .fullModule => some origin

/-- The namespace of a type: the given one, or else what the mode takes from the origin of the type. -/
def chosenNs (given : Option String) (mode : NamespaceMode) (origin : Option String) : Option String :=
  match nonempty? given with
  | some ns => some ns
  | none => (nonempty? origin).bind (ofOrigin mode)

end Avro.Name
