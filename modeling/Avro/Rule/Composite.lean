import Avro.Derivation.Field
import Avro.Rule.Basic

/-!
# Enumerations, unions, collections and records
-/

namespace Avro.Rule

/-! ## Enumerations -/

/-- The symbols in the order in which they are listed first, all of them names. `known` are those before the list. -/
def distinctSymbols (known : List String) : List String → Except TypeFault (List String)
  | [] => .ok known
  | s :: ss =>
    match Name.check s with
    | .error f => .error f
    | .ok _ => distinctSymbols (if s ∈ known then known else known ++ [s]) ss

def enumSchema (cx : Setting) (id : TypeId) (d : Descriptor) : Derive Schema :=
  match d.shape with
  | .enum symbols =>
    Derive.namedSchema cx id d fun h => do
      match ← Derive.ofFault (distinctSymbols [] symbols) with
      | [] => throw (.type (.name h.fullName .noSymbols))
      | s :: ss => pure (.enum h.toHeading h.doc (s :: ss) s)
  | _ => refuse d

/-- One of the symbols as a string. -/
def encodeSymbol (name : String) (symbols : List String) (v : Value) : Except Mismatch Json :=
  match v with
  | .str s => if s ∈ symbols then .ok (.str s) else mismatch (.symbol symbols s)
  | v => mustBe name v

/-- Enumerations. -/
def enum : Rule where
  name := "enum"
  handles _ d :=
    match d.shape with
    | .enum _ => true
    | _ => false
  schema cx _ id d := enumSchema cx id d
  encode _ _ d v :=
    match d.shape with
    | .enum symbols => .ofExcept (encodeSymbol d.name symbols v)
    | _ => .ofExcept (mismatch (.otherKind "an enum"))

/-! ## Unions -/

def unionSchema (cx : Setting) (parts : Parts) (id : TypeId) (d : Descriptor) : Derive Schema :=
  match d.shape with
  | .union members => Derive.unnamed id d (Derive.union cx parts members)
  | _ => refuse d

/-- A default of a union, as one of the first member that accepts it. -/
def encodeUnion (g : TypeGraph) (encode : TypeId → Value → Encode Json) (members : List Edge) (v : Value) :
    Encode Json :=
  match g.flatMembers members with
  | .error f => .ofExcept (mismatch (.type f))
  | .ok members => do
    let choice ← Encode.choose g encode members v
    pure choice.encoded

/-- Unions. -/
def union : Rule where
  name := "union"
  handles _ d :=
    match d.shape with
    | .union _ => true
    | _ => false
  schema cx parts id d := unionSchema cx parts id d
  encode cx encode d v :=
    match d.shape with
    | .union members => encodeUnion cx.graph encode members v
    | _ => .ofExcept (mismatch (.otherKind "a union"))

/-! ## Sequences and maps -/

def sequenceSchema (parts : Parts) (id : TypeId) (d : Descriptor) : Derive Schema :=
  match d.shape with
  | .sequence element =>
    Derive.unnamed id d (.array <$> parts.schema element.target)
  | _ => refuse d

/-- The encodings of the items of a list from the `i`-th on. -/
def encodeItems (encode : Value → Encode Json) (i : Nat) : List Value → Encode (List Json)
  | [] => pure []
  | v :: vs => do
    let j ← (encode v).within (.index i)
    let js ← encodeItems encode (i + 1) vs
    pure (j :: js)

/-- Sequences. -/
def sequence : Rule where
  name := "sequence"
  handles _ d :=
    match d.shape with
    | .sequence _ => true
    | _ => false
  schema _ parts id d := sequenceSchema parts id d
  encode _ encode d v :=
    match d.shape, v with
    | .sequence element, .list items => .arr <$> encodeItems (encode element.target) 0 items
    | .sequence _, v => .ofExcept (mustBe "list" v)
    | _, _ => .ofExcept (mismatch (.otherKind "a sequence"))

def mapSchema (cx : Setting) (parts : Parts) (id : TypeId) (d : Descriptor) : Derive Schema :=
  match d.shape with
  | .map key value => do
    let k ← Derive.ofFault (cx.graph.follow key)
    if !k.isBasic .string then throw (.type (.unsupported (.mapKeys d.name k.name)))
    Derive.unnamed id d (.map <$> parts.schema value.target)
  | _ => refuse d

/-- The encodings of the values of entries, with their keys. -/
def encodeEntries (encode : Value → Encode Json) : List (String × Value) → Encode Json.Entries
  | [] => pure []
  | (k, v) :: es => do
    let j ← (encode v).within (.key k)
    let js ← encodeEntries encode es
    pure ((k, j) :: js)

/-- Maps with strings for keys. -/
def map : Rule where
  name := "map"
  handles _ d :=
    match d.shape with
    | .map _ _ => true
    | _ => false
  schema cx parts id d := mapSchema cx parts id d
  encode _ encode d v :=
    match d.shape, v with
    | .map _ value, .dict entries => Json.ofEntries <$> encodeEntries (encode value.target) entries
    | .map _ _, v => .ofExcept (mustBe "dict" v)
    | _, _ => .ofExcept (mismatch (.otherKind "a map"))

/-! ## Records -/

def recordSchema (cx : Setting) (parts : Parts) (id : TypeId) (d : Descriptor) : Derive Schema :=
  match d.shape with
  | .record fields =>
    Derive.namedSchema cx id d fun h => do
      let fields ← Derive.fields cx parts h.fullName [] fields
      pure (.record h.toHeading h.doc fields)
  | _ => refuse d

/-- The value of a field in a default of its record: its entry, the first if there are several, or its own default. -/
def givenValue? (entries : List (String × Value)) (f : Field) : Option Value :=
  match entries.find? fun e => e.1 == f.name with
  | some e => some e.2
  | none => f.default

/-- The first key of the entries that is the name of none of the fields. -/
def unknownKey? (fields : List Field) (entries : List (String × Value)) : Option String :=
  (entries.find? fun e => !fields.any fun f => f.name == e.1).map Prod.fst

/-- The encodings of the values of fields, under the names that the fields have in schemas. -/
def encodeFields (cx : Setting) (encode : TypeId → Value → Encode Json) (entries : List (String × Value)) :
    List Field → Encode Json.Entries
  | [] => pure []
  | f :: fs => do
    match givenValue? entries f with
    | none => throw ((Mismatch.here .noValue).within (.field f.name))
    | some v =>
      let j ← (encode f.type.target v).within (.field f.name)
      let js ← encodeFields cx encode entries fs
      pure ((cx.fieldName f, j) :: js)

/-- A default of a record: a value for each field. -/
def encodeRecord (cx : Setting) (encode : TypeId → Value → Encode Json) (name : String) (fields : List Field)
    (v : Value) : Encode Json :=
  match v with
  | .dict entries =>
    match unknownKey? fields entries with
    | some key => .ofExcept (mismatch (.unknownField name key))
    | none => Json.ofEntries <$> encodeFields cx encode entries fields
  | v => .ofExcept (mustBe name v)

/-- Records. -/
def record : Rule where
  name := "record"
  handles _ d := d.isRecord
  schema cx parts id d := recordSchema cx parts id d
  encode cx encode d v :=
    match d.shape with
    | .record fields => encodeRecord cx encode d.name fields v
    | _ => .ofExcept (mismatch (.otherKind "a record"))

end Avro.Rule
