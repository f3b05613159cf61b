import Avro.Binary64.Text
import Avro.Json.Basic

/-!
# JSON texts

A value is written without any blank (`Json.compact`), or with each item and entry on a line of its own, indented by
two spaces a level (`Json.pretty`). Both write strings and numbers alike, and an empty array or object as its two
brackets.
-/

namespace Avro.Json

/-- A hexadecimal digit in lower case. -/
def hexDigit (n : Nat) : Char := Nat.digitChar n

/-- One character of a string. Quotes, backslashes and what lies below the space are escaped, and nothing else. -/
def escaped (c : Char) : List Char :=
  if c = '"' then ['\\', '"']
  else if c = '\\' then ['\\', '\\']
  else if c = '\x08' then ['\\', 'b']
  else if c = '\x0c' then ['\\', 'f']
  else if c = '\n' then ['\\', 'n']
  else if c = '\r' then ['\\', 'r']
  else if c = '\t' then ['\\', 't']
  else if c.toNat < 0x20 then ['\\', 'u', '0', '0', hexDigit (c.toNat / 16), hexDigit (c.toNat % 16)]
  else [c]

/-- A string in double quotes. -/
def writeString (s : String) : List Char := '"' :: s.toList.flatMap escaped ++ ['"']

/-- An integer in decimal. -/
def writeInt (i : Int) : List Char :=
  if i < 0 then '-' :: Nat.toDigits 10 i.natAbs else Nat.toDigits 10 i.natAbs

/-- A value that has no parts. -/
def writeScalar : Json → List Char
  | null => ['n', 'u', 'l', 'l']
  | bool true => ['t', 'r', 'u', 'e']
  | bool false => ['f', 'a', 'l', 's', 'e']
  | int i => writeInt i
  | double x => x.text
  | str s => writeString s
  | arr _ => []
  | obj _ => []

mutual

/-- The value without blanks. -/
def writeCompact : Json → List Char
  | arr items => '[' :: [','].intercalate (compactItems items) ++ [']']
  | obj es => '{' :: [','].intercalate (compactEntries es) ++ ['}']
  | v => writeScalar v

def compactItems : List Json → List (List Char)
  | [] => []
  | v :: vs => writeCompact v :: compactItems vs

def compactEntries : Entries → List (List Char)
  | [] => []
  | (k, v) :: es => (writeString k ++ ':' :: writeCompact v) :: compactEntries es

end

/-- A new line at a level of indentation. -/
def newline (level : Nat) : List Char := '\n' :: List.replicate (2 * level) ' '

/-- The parts of an array or object that stands at a level, each on a line of its own between the brackets. -/
def block (left right : Char) (level : Nat) : List (List Char) → List Char
  | [] => [left, right]
  | parts =>
    left :: newline (level + 1) ++ (',' :: newline (level + 1)).intercalate parts ++ newline level ++ [right]

mutual

/-- The value at a level of indentation. -/
def writePretty (level : Nat) : Json → List Char
  | arr items => block '[' ']' level (prettyItems (level + 1) items)
  | obj es => block '{' '}' level (prettyEntries (level + 1) es)
  | v => writeScalar v

def prettyItems (level : Nat) : List Json → List (List Char)
  | [] => []
  | v :: vs => writePretty level v :: prettyItems level vs

def prettyEntries (level : Nat) : Entries → List (List Char)
  | [] => []
  | (k, v) :: es => (writeString k ++ ':' :: ' ' :: writePretty level v) :: prettyEntries level es

end

/-- The text of the value without any blank between its parts. -/
def compact (v : Json) : String := String.ofList (writeCompact v)

/-- The text of the value on indented lines. -/
def pretty (v : Json) : String := String.ofList (writePretty 0 v)

end Avro.Json
