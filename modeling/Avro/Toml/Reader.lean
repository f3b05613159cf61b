import Avro.Toml.Scalar
import Avro.Toml.Table

/-!
# Reading a TOML document

`Toml.read?` reads a document: headers, keys with dots, and values. Of the values, texts, truth values, arrays and
inline tables are kept; of a number or a date it is kept that there is one. Keys and nested values have a limit of
depth.
-/

namespace Avro.Toml

/-- A character of a key without quotes. -/
def isBare (c : Char) : Bool :=
  let n := c.toNat
  (0x41 ≤ n && n ≤ 0x5A) || (0x61 ≤ n && n ≤ 0x7A) || (0x30 ≤ n && n ≤ 0x39) || c == '_' || c == '-'

/-- One segment of a key. -/
def keySegment? (s : List Char) : Option (String × List Char) :=
  match keyString? s with
  | some r => some r
  | none =>
    let word := s.takeWhile isBare
    if word.isEmpty then none else some (String.ofList word, s.dropWhile isBare)

/-- The segments of a key are fewer than this, and so are the brackets and braces around a value. -/
def depthLimit : Nat := 80

/-- A key of at most so many segments, with dots between them and blanks around the dots. -/
def keyWithin? : Nat → Reader (List String)
  | 0, _ => none
  | n + 1, s =>
    (keySegment? s).bind fun (k, r) =>
      match skipSpace r with
      | '.' :: r => (keyWithin? n (skipSpace r)).map fun (ks, r) => (k :: ks, r)
      | r => some ([k], r)

/-- A key. -/
def key? : Reader (List String) := keyWithin? (depthLimit - 1)

/-- The characters behind blanks, comments and line ends. -/
def skipLines : Nat → List Char → List Char
  | 0, s => s
  | n + 1, s =>
    let r := skipComment s
    match lineEnd? r with
    | some r => skipLines n r
    | none => r

/-- The key with its path, to which a value belongs. -/
def splitPath (ks : List String) : Option (List String × String) := ks.getLast?.map fun k => (ks.dropLast, k)

mutual

/-- A value with so many brackets and braces around it. -/
def value? : Nat → Nat → Reader Document
  | 0, _, _ => none
  | n + 1, depth, s =>
    match s with
    | '[' :: r =>
      if depth + 1 < depthLimit then
        (items? n (depth + 1) (skipLines r.length r)).map fun (vs, r) => (.list vs, r)
      else none
    | '{' :: r =>
      if depth + 1 < depthLimit then
        (inline? n (depth + 1) (skipSpace r)).map fun (es, r) => (.table (entriesDocument es), r)
      else none
    | 't' :: 'r' :: 'u' :: 'e' :: r => some (.bool true, r)
    | 'f' :: 'a' :: 'l' :: 's' :: 'e' :: r => some (.bool false, r)
    | s =>
      match string? s with
      | some (t, r) => some (.text t, r)
      | none => (skipScalar? s).map fun r => (.other, r)

/-- The items of an array from one of them on, with commas between them and perhaps one behind the last. -/
def items? : Nat → Nat → Reader (List Document)
  | 0, _, _ => none
  | n + 1, depth, s =>
    match s with
    | ']' :: r => some ([], r)
    | s =>
      (value? n depth s).bind fun (v, r) =>
        match skipLines r.length r with
        | ',' :: r => (items? n depth (skipLines r.length r)).map fun (vs, r) => (v :: vs, r)
        | ']' :: r => some ([v], r)
        | _ => none

/-- The entries of an inline table, which stands on one line. -/
def inline? : Nat → Nat → Reader Entries
  | 0, _, _ => none
  | n + 1, depth, s =>
    match s with
    | '}' :: r => some ([], r)
    | s => keyValues? n depth [] s

/-- The entries of an inline table from one of them on, behind those in `es`. -/
def keyValues? : Nat → Nat → Entries → Reader Entries
  | 0, _, _, _ => none
  | n + 1, depth, es, s =>
    (keyValue? n depth s).bind fun (((path, key), v), r) =>
      (putValue key v path es).bind fun es =>
        match skipSpace r with
        | ',' :: r => keyValues? n depth es (skipSpace r)
        | '}' :: r => some (es, r)
        | _ => none

/-- A key and its value with the sign between them. -/
def keyValue? : Nat → Nat → Reader ((List String × String) × Document)
  | 0, _, _ => none
  | n + 1, depth, s =>
    (key? s).bind fun (ks, r) =>
      (splitPath ks).bind fun pk =>
        match skipSpace r with
        | '=' :: r => (value? n depth (skipSpace r)).map fun (v, r) => ((pk, v), r)
        | _ => none

end

/-- The key of a header, between brackets. -/
def headerKey? (s : List Char) : Option ((List String × String) × List Char) :=
  (key? (skipSpace s)).bind fun (ks, r) => (splitPath ks).map fun pk => (pk, skipSpace r)

/-- A document as far as it is read: the path of the open table, and the tables. -/
structure Draft where
  path : List String := []
  root : Entries := []

/-- One line: a header, a key with its value, or nothing. -/
def line? (d : Draft) (s : List Char) : Option (Draft × List Char) :=
  match s with
  | '[' :: '[' :: r =>
    (headerKey? r).bind fun ((path, key), r) =>
      match r with
      | ']' :: ']' :: r => (descend (openItem key) path d.root).map fun root => (⟨path ++ [key], root⟩, r)
      | _ => none
  | '[' :: r =>
    (headerKey? r).bind fun ((path, key), r) =>
      match r with
      | ']' :: r => (descend (openTable key) path d.root).map fun root => (⟨path ++ [key], root⟩, r)
      | _ => none
  | '#' :: _ => some (d, s)
  | '\n' :: _ => some (d, s)
  | '\r' :: _ => some (d, s)
  | [] => some (d, s)
  | s =>
    (keyValue? (2 * s.length + 2) 0 s).bind fun (((path, key), v), r) =>
      (descend (putValue key v path) d.path d.root).map fun root => ({ d with root }, r)

/-- The lines of a document. -/
def lines? : Nat → Draft → List Char → Option Draft
  | 0, _, _ => none
  | n + 1, d, s =>
    (line? d (skipSpace s)).bind fun (d, r) =>
      match endOfLine? (skipComment r) with
      | none => none
      | some [] => some d
      | some r => lines? n d r

/-- The characters without a byte order mark in front. -/
def skipMark : List Char → List Char
  | '\uFEFF' :: s => s
  | s => s

/-- Reads a document. -/
def read? (text : String) : Option Document :=
  let s := skipMark text.toList
  (lines? (s.length + 1) {} s).map fun d => .table (entriesDocument d.root)

end Avro.Toml
