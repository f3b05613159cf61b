import Avro.Document

/-!
# Tables of a TOML document

The tables of a document are opened by headers and by keys with dots. A table is opened by one header at most; keys with
dots reach only tables that such keys have opened; and a key has one value.
-/

namespace Avro.Toml

/-- What has opened a table. -/
inductive Opening where
  /-- A header for a table inside it. -/
  | implicit
  /-- A key with dots. -/
  | dotted
  /-- A header of its own. -/
  | header
deriving DecidableEq

/-- What stands at a key. -/
inductive Node where
  /-- A value, to which nothing is added. -/
  | value (v : Document)
  | table (opening : Opening) (entries : List (String × Node))
  /-- Tables of one header each, of which the last is open. -/
  | tables (items : List (List (String × Node)))

/-- The entries of a table. -/
abbrev Entries := List (String × Node)

/-- Changes what stands at a key, which may be nothing. -/
def alter (key : String) (f : Option Node → Option Node) : Entries → Option Entries
  | [] => (f none).map fun n => [(key, n)]
  | (k, n) :: es =>
    if k = key then (f (some n)).map fun n' => (k, n') :: es
    else (alter key f es).map fun es' => (k, n) :: es'

/-- Changes the last of several tables. -/
def alterLast (f : Entries → Option Entries) : List Entries → Option (List Entries)
  | [] => none
  | [t] => (f t).map fun t' => [t']
  | t :: ts => (alterLast f ts).map fun ts' => t :: ts'

/-- Changes the table that the path of a header leads to. Tables on the way are opened. -/
def descend (f : Entries → Option Entries) : List String → Entries → Option Entries
  | [], es => f es
  | k :: ks, es =>
    alter k (fun
      | none => (descend f ks []).map (.table .implicit)
      | some (.table opening inner) => (descend f ks inner).map (.table opening)
      | some (.tables items) => (alterLast (descend f ks) items).map .tables
      | some (.value _) => none) es

/-- Opens the table of a header. -/
def openTable (key : String) : Entries → Option Entries :=
  alter key fun
    | none => some (.table .header [])
    | some (.table .implicit es) => some (.table .header es)
    | some _ => none

/-- Opens one more of several tables. -/
def openItem (key : String) : Entries → Option Entries :=
  alter key fun
    | none => some (.tables [[]])
    | some (.tables items) => some (.tables (items ++ [[]]))
    | some _ => none

/-- Gives a key its value. The path holds the segments before the key. -/
def putValue (key : String) (v : Document) : List String → Entries → Option Entries
  | [], es =>
    alter key (fun
      | none => some (.value v)
      | some _ => none) es
  | p :: ps, es =>
    alter p (fun
      | none => (putValue key v ps []).map (.table .dotted)
      | some (.table .dotted inner) => (putValue key v ps inner).map (.table .dotted)
      | some (.table .implicit inner) =>
        if ps.isEmpty then none else (putValue key v ps inner).map (.table .implicit)
      | some (.tables items) => if ps.isEmpty then none else (alterLast (putValue key v ps) items).map .tables
      | some _ => none) es

mutual

/-- What a node says. -/
def Node.document : Node → Document
  | .value v => v
  | .table _ es => .table (entriesDocument es)
  | .tables items => .list (itemsDocument items)

def entriesDocument : List (String × Node) → List (String × Document)
  | [] => []
  | (k, n) :: es => (k, n.document) :: entriesDocument es

def itemsDocument : List (List (String × Node)) → List Document
  | [] => []
  | t :: ts => .table (entriesDocument t) :: itemsDocument ts

end

end Avro.Toml
