import Avro.Derivation.Named
import Avro.Json.Printer
import Avro.Rule.Basic

/-!
# Types without parts

Types that are known only by their names, primitive types, strings with a name of their own, and JSON documents,
which are stored as text.
-/

namespace Avro.Rule

/-! ## Types known by their names -/

/-- The reference by which a name stands for a type; the name may have segments. -/
def forwardSchema (d : Descriptor) : Derive Schema :=
  match d.shape with
  | .forward name =>
    if name.isEmpty then throw (.type (.name name .nameless))
    else do
      Derive.ofFault (Name.checkNamespace name)
      pure (.reference name)
  | _ => refuse d

/-- Nothing is known about the type, so any value may be its default that has a JSON form, except null. -/
def encodeForward (v : Value) : Except Mismatch Json :=
  if v.isNull then mustBe "a named type" v
  else
    match v.toJson? with
    | some j => .ok j
    | none => mustBe "a JSON value" v

/-- Types that are known only by their names. -/
def forward : Rule where
  name := "forward-ref"
  handles _ d :=
    match d.shape with
    | .forward _ => true
    | _ => false
  schema _ _ _ d := forwardSchema d
  encode _ _ _ v := .ofExcept (encodeForward v)

/-! ## Primitive types -/

/-- The primitive type of a basic type; there is none for values of any kind. -/
def primitive? (o : Options) : Basic → Option Primitive
  | .null => some .null
  | .boolean => some .boolean
  | .integer => some (if o.int32 then .int else .long)
  | .float => some (if o.float32 then .float else .double)
  | .bytes => some .bytes
  | .string => some .string
  | .any => none

def basicSchema (o : Options) (d : Descriptor) : Derive Schema :=
  match d.shape with
  | .basic kind =>
    match primitive? o kind with
    | some p => pure (.primitive p)
    | none => refuse d
  | _ => refuse d

/-- The word for the values of a basic type. -/
def basicWord : Basic → String
  | .null => "null"
  | .boolean => "bool"
  | .integer => "int"
  | .float => "float"
  | .bytes => "bytes"
  | .string => "str"
  | .any => "Any"

/-- Whether an integer has at most 32 bits. -/
def fitsInt32 (i : Int) : Bool := -0x80000000 ≤ i && i < 0x80000000

/-- A value of a basic type. An integer is also a floating-point number. -/
def encodeBasic (o : Options) (kind : Basic) (v : Value) : Except Mismatch Json :=
  match kind, v with
  | .null, .null => .ok .null
  | .boolean, .bool b => .ok (.bool b)
  | .integer, .int i => if o.int32 && !fitsInt32 i.toInt then mismatch (.int32 i.toInt) else .ok (.int i.toInt)
  | .float, .float x => if x.isFinite then .ok (.double x) else mismatch .notFinite
  | .float, .int i => .ok (.int i.toInt)
  | .bytes, .bytes bs => .ok (bytesToJson bs)
  | .string, .str s => .ok (.str s)
  | kind, v => mustBe (basicWord kind) v

/-- Primitive types. -/
def basic : Rule where
  name := "primitive"
  handles _ d :=
    match d.shape with
    | .basic kind => kind != .any
    | _ => false
  schema cx _ _ d := basicSchema cx.options d
  encode cx _ d v :=
    match d.shape with
    | .basic kind => .ofExcept (encodeBasic cx.options kind v)
    | _ => .ofExcept (mismatch (.otherKind "a primitive"))

/-! ## Named strings -/

def namedStringSchema (cx : Setting) (d : Descriptor) : Derive Schema := do
  Derive.ofFault (Name.check d.name)
  let ns ← Derive.ofFault (cx.namespaceOf d)
  pure (.namedString (Name.full ns d.name))

/-- A string and nothing else. -/
def encodeString (v : Value) : Except Mismatch Json :=
  match v with
  | .str s => .ok (.str s)
  | v => mustBe "str" v

/-- Strings with a name of their own. -/
def namedString : Rule where
  name := "named-string"
  handles _ d :=
    match d.shape with
    | .namedString => true
    | _ => false
  schema cx _ _ d := namedStringSchema cx d
  encode _ _ _ v := .ofExcept (encodeString v)

/-! ## JSON documents -/

/-- The primitive type that holds the text of a document. -/
def documentBase (o : Options) : Primitive :=
  match o.jsonEncoding with
  | .bytes => .bytes
  | .string => .string

/-- The document of a default, which is not null. -/
def document? : Value → Option Json
  | .null => none
  | .json .null => none
  | v => v.toJson?

/-- The text of the document of a default: an array if `isArray`, and an object otherwise. -/
def encodeDocument (isArray : Bool) (v : Value) : Except Mismatch Json :=
  match document? v, isArray with
  | some (.arr items), true => .ok (.str (Json.arr items).compact)
  | some (.obj es), false => .ok (.str (Json.obj es).compact)
  | _, _ => mustBe (if isArray then "list of dict" else "dict") v

/-- JSON objects and sequences of them. -/
def json : Rule where
  name := "json"
  handles g d := g.isJsonObject d || g.isJsonArray d
  schema cx _ _ _ := pure (.refined (documentBase cx.options) "json")
  encode cx _ d v := .ofExcept (encodeDocument (cx.graph.isJsonArray d) v)

end Avro.Rule
