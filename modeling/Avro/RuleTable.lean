import Avro.Rule.Composite
import Avro.Rule.Leaf
import Avro.Rule.Refined

/-!
# Tables of rules

A `RuleTable` holds rules in the order in which they are asked: by increasing priority, and among equal priorities in
the order in which they were added. The first rule that takes care of a type has it.
-/

namespace Avro

/-- A rule with its priority. Lower priorities are asked first. -/
structure RankedRule where
  priority : Nat
  rule : Rule

/-- Rules in the order in which they are asked. -/
structure RuleTable where
  entries : List RankedRule := []

/-- A type for messages: its name, with its kind where the name says little. -/
def Descriptor.label (d : Descriptor) : String :=
  match d.shape with
  | .basic .null => d.name ++ " (Null)"
  | .basic .boolean => d.name ++ " (Boolean)"
  | .basic .integer => d.name ++ " (Integer)"
  | .basic .float => d.name ++ " (Float)"
  | .basic .bytes => d.name ++ " (Bytes)"
  | .basic .string => d.name ++ " (String)"
  | .basic .any => d.name ++ " (untyped values are only supported as Dict[str, Any])"
  | .refined .date => d.name ++ " (Date)"
  | .refined .moment => d.name ++ " (DateTime)"
  | .refined .time => d.name ++ " (Time)"
  | .refined .duration => d.name ++ " (Duration)"
  | .refined .uuid => d.name ++ " (Uuid)"
  | .decimal params => d.name ++ "[" ++ ", ".intercalate (params.map toString) ++ "]"
  | _ => d.name

namespace RuleTable

/-- The table without rules. -/
def empty : RuleTable := {}

/-- Puts a rule behind all of its priority and before all of a greater one. -/
def place (r : RankedRule) : List RankedRule → List RankedRule
  | [] => [r]
  | e :: es => if r.priority < e.priority then r :: e :: es else e :: place r es

theorem length_place (r : RankedRule) (es : List RankedRule) : (place r es).length = es.length + 1 := by
  induction es with
  | nil => rfl
  | cons e es ih =>
    simp only [place]
    split <;> simp [ih]

/-- Adds a rule. -/
def insert (t : RuleTable) (priority : Nat) (rule : Rule) : RuleTable := ⟨place ⟨priority, rule⟩ t.entries⟩

/-- The rules of the library with their priorities, which leave room between them. -/
def standardRules : List RankedRule :=
  [⟨100, .forward⟩, ⟨200, .basic⟩, ⟨300, .namedString⟩, ⟨400, .json⟩, ⟨500, .logical⟩, ⟨600, .decimal⟩,
   ⟨700, .duration⟩, ⟨800, .enum⟩, ⟨900, .union⟩, ⟨1000, .sequence⟩, ⟨1100, .map⟩, ⟨1200, .record⟩]

/-- The table of all rules of the library. -/
def standard : RuleTable := standardRules.foldl (fun t r => t.insert r.priority r.rule) empty

/-- The rule of the library with the name. -/
def standardRule? (name : String) : Option Rule := (standardRules.find? fun r => r.rule.name == name).map (·.rule)

/-- The rule that takes care of a type. -/
def find? (t : RuleTable) (g : TypeGraph) (d : Descriptor) : Option Rule :=
  (t.entries.find? fun e => e.rule.handles g d).map (·.rule)

/-- The rule that takes care of a type, which is at fault if there is none. -/
def find (t : RuleTable) (g : TypeGraph) (d : Descriptor) : Except TypeFault Rule :=
  match t.find? g d with
  | some r => .ok r
  | none => .error (.unsupported (.noRule d.label))

/-- Priorities and names of the rules in the order in which they are asked. -/
def ranks (t : RuleTable) : List (Nat × String) := t.entries.map fun e => (e.priority, e.rule.name)

/-- The number of rules. -/
def size (t : RuleTable) : Nat := t.entries.length

@[simp] theorem size_insert (t : RuleTable) (priority : Nat) (rule : Rule) :
    (t.insert priority rule).size = t.size + 1 := length_place _ _

def isEmpty (t : RuleTable) : Bool := t.entries.isEmpty

end RuleTable
end Avro
