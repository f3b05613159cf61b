import Avro.Calendar
import Avro.Json.Basic
import Avro.Uuid

/-!
# Default values

A `Value` is the default that a field of a record declares, before it is known to fit the type of the field.
-/

namespace Avro

/-- A default as it is declared. -/
inductive Value where
  | null
  | bool (b : Bool)
  | int (i : Int64)
  | float (x : Binary64)
  | str (s : String)
  | bytes (bs : List UInt8)
  | list (items : List Value)
  /-- Pairs in the order of their declaration; a key may come more than once. Records have such defaults too. -/
  | dict (entries : List (String × Value))
  | date (d : Date)
  | time (t : Time)
  | moment (m : Moment)
  /-- A date and a time with no zone, which is no default of any type. -/
  | localTime (t : LocalTime)
  /-- A span of milliseconds. -/
  | duration (millis : Int)
  | uuid (u : Uuid)
  /-- A decimal number by its literal. -/
  | decimal (literal : String)
  | json (document : Json)

namespace Value

instance : Inhabited Value := ⟨null⟩

/-- The word for the kind of value in messages. -/
def kindWord : Value → String
  | null => "null"
  | bool _ => "bool"
  | int _ => "int"
  | float _ => "float"
  | str _ => "str"
  | bytes _ => "bytes"
  | list _ => "list"
  | dict _ => "dict"
  | date _ => "date"
  | time _ => "time"
  | moment _ => "datetime"
  | localTime _ => "datetime"
  | duration _ => "timedelta"
  | uuid _ => "UUID"
  | decimal _ => "Decimal"
  | json _ => "json"

def isNull : Value → Bool
  | null => true
  | _ => false

mutual

/-- The number of values in a value, itself among them. -/
def size : Value → Nat
  | list items => 1 + sizeItems items
  | dict es => 1 + sizeEntries es
  | _ => 1

def sizeItems : List Value → Nat
  | [] => 0
  | v :: vs => size v + sizeItems vs

def sizeEntries : List (String × Value) → Nat
  | [] => 0
  | (_, v) :: es => size v + sizeEntries es

end

mutual

/-- Equality of values of one kind: numbers as numbers, moments as moments, JSON documents up to the order of keys. -/
def same : Value → Value → Bool
  | null, null => true
  | bool a, bool b => a == b
  | int a, int b => a == b
  | float a, float b => a.sameNumber b
  | str a, str b => a == b
  | bytes a, bytes b => a == b
  | list a, list b => sameItems a b
  | dict a, dict b => sameEntries a b
  | date a, date b => a == b
  | time a, time b => a == b
  | moment a, moment b => a.same b
  | localTime a, localTime b => a == b
  | duration a, duration b => a == b
  | uuid a, uuid b => a == b
  | decimal a, decimal b => a == b
  | json a, json b => a.same b
  | _, _ => false

def sameItems : List Value → List Value → Bool
  | [], [] => true
  | a :: as, b :: bs => same a b && sameItems as bs
  | _, _ => false

def sameEntries : List (String × Value) → List (String × Value) → Bool
  | [], [] => true
  | (k, a) :: as, (l, b) :: bs => k == l && same a b && sameEntries as bs
  | _, _ => false

end

mutual

/-- The JSON form of a value that has an obvious one; `none` for the others, and where one of them is a part. -/
def toJson? : Value → Option Json
  | null => some .null
  | bool b => some (.bool b)
  | int i => some (.int i.toInt)
  | float x => if x.isFinite then some (.double x) else none
  | str s => some (.str s)
  | list items => (itemsToJson? items).map .arr
  | dict es => (entriesToJson? es).map Json.ofEntries
  | json document => some document
  | _ => none

def itemsToJson? : List Value → Option (List Json)
  | [] => some []
  | v :: vs =>
    match toJson? v, itemsToJson? vs with
    | some j, some js => some (j :: js)
    | _, _ => none

def entriesToJson? : List (String × Value) → Option Json.Entries
  | [] => some []
  | (k, v) :: es =>
    match toJson? v, entriesToJson? es with
    | some j, some js => some ((k, j) :: js)
    | _, _ => none

end

end Value

/-- The JSON form of bytes: a string with one character for each byte, of the byte's number. -/
def bytesToJson (bs : List UInt8) : Json := .str (String.ofList (bs.map fun b => Char.ofNat b.toNat))

end Avro
