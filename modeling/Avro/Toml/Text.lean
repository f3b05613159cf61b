import Avro.Text.Digits

/-!
# Texts in a TOML document

Readers of blanks, comments, line ends and the four kinds of strings. A reader takes the front of the characters and
gives back the rest; `none` if the front is not what it reads.
-/

namespace Avro.Toml

/-- A reader of the front of a list of characters. -/
abbrev Reader (α : Type) := List Char → Option (α × List Char)

/-- Within a line, blanks are the space and the tab. -/
def isSpace (c : Char) : Bool := c == ' ' || c == '\t'

/-- The characters without the blanks in front. -/
def skipSpace (s : List Char) : List Char := s.dropWhile isSpace

/-- A character that a comment or a literal string may hold. -/
def isPlain (c : Char) : Bool := c == '\t' || (0x20 ≤ c.toNat && c.toNat != 0x7F)

/-- The characters behind blanks and a comment. -/
def skipComment (s : List Char) : List Char :=
  match skipSpace s with
  | '#' :: r => r.dropWhile isPlain
  | r => r

/-- The characters behind a line feed, which a carriage return may precede. -/
def lineEnd? : List Char → Option (List Char)
  | '\n' :: r => some r
  | '\r' :: '\n' :: r => some r
  | _ => none

/-- The characters behind a line end, or none at the end of the text. -/
def endOfLine? : List Char → Option (List Char)
  | [] => some []
  | s => lineEnd? s

/-- The character of so many hexadecimal digits, after those that make `acc`. -/
def codePoint? : Nat → Nat → Reader Char
  | 0, acc, s => if h : acc.isValidChar then some (Char.ofNatAux acc h, s) else none
  | n + 1, acc, c :: s => (Text.digitValue? c).bind fun d => codePoint? n (16 * acc + d) s
  | _ + 1, _, [] => none

/-- The character that stands behind a backslash in a string. -/
def escape? : Reader Char
  | 'b' :: s => some ('\x08', s)
  | 't' :: s => some ('\t', s)
  | 'n' :: s => some ('\n', s)
  | 'f' :: s => some ('\x0c', s)
  | 'r' :: s => some ('\r', s)
  | '"' :: s => some ('"', s)
  | '\\' :: s => some ('\\', s)
  | 'u' :: s => codePoint? 4 0 s
  | 'U' :: s => codePoint? 8 0 s
  | _ => none

/-- One more character of a string that is being read. -/
def consChar (c : Char) (r : Option (List Char × List Char)) : Option (List Char × List Char) :=
  r.map fun p => (c :: p.1, p.2)

/-- A string on one line, behind its opening mark. A literal one has no escapes. -/
def lineString? (mark : Char) : Nat → Reader (List Char)
  | 0, _ => none
  | n + 1, s =>
    match s with
    | [] => none
    | c :: r =>
      if c = mark then some ([], r)
      else if c = '\\' ∧ mark = '"' then
        match escape? r with
        | some (e, r) => consChar e (lineString? mark n r)
        | none => none
      else if isPlain c then consChar c (lineString? mark n r)
      else none

/-- The characters behind blanks and line ends. -/
def skipEmpty : List Char → List Char
  | ' ' :: r => skipEmpty r
  | '\t' :: r => skipEmpty r
  | '\n' :: r => skipEmpty r
  | '\r' :: '\n' :: r => skipEmpty r
  | r => r

/-- The characters behind blanks and at least one line end, of which a backslash makes nothing. -/
def skipFold? (s : List Char) : Option (List Char) := (lineEnd? (skipSpace s)).map skipEmpty

/--
A string on several lines, behind its opening marks. One or two marks in a row belong to the string, also in front of
the three that close it.
-/
def blockString? (mark : Char) : Nat → Reader (List Char)
  | 0, _ => none
  | n + 1, s =>
    match s with
    | [] => none
    | c :: r =>
      if c = mark then
        if r.take 2 = [mark, mark] then
          let more := ((r.drop 2).take 2).takeWhile (· == mark)
          some (more, (r.drop 2).drop more.length)
        else consChar c (blockString? mark n r)
      else if c = '\\' ∧ mark = '"' then
        match escape? r with
        | some (e, r) => consChar e (blockString? mark n r)
        | none =>
          match skipFold? r with
          | some r => blockString? mark n r
          | none => none
      else if isPlain c then consChar c (blockString? mark n r)
      else
        match lineEnd? (c :: r) with
        | some r => consChar '\n' (blockString? mark n r)
        | none => none

/-- The characters without a line end in front. -/
def skipLineEnd (s : List Char) : List Char := (lineEnd? s).getD s

/-- A string that stands for a key: on one line. -/
def keyString? : Reader String
  | '"' :: s => (lineString? '"' (s.length + 1) s).map fun p => (String.ofList p.1, p.2)
  | '\'' :: s => (lineString? '\'' (s.length + 1) s).map fun p => (String.ofList p.1, p.2)
  | _ => none

/-- A string of any kind. A line end right behind the opening of a string on several lines is no part of it. -/
def string? : Reader String
  | '"' :: '"' :: '"' :: s =>
    (blockString? '"' (s.length + 1) (skipLineEnd s)).map fun p => (String.ofList p.1, p.2)
  | '\'' :: '\'' :: '\'' :: s =>
    (blockString? '\'' (s.length + 1) (skipLineEnd s)).map fun p => (String.ofList p.1, p.2)
  | s => keyString? s

end Avro.Toml
