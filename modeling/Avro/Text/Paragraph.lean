import Avro.Text.Blank

/-!
# Lines and paragraphs

A line ends at a line feed, which one carriage return may precede. `firstParagraph` is the documentation of a type as
a schema shows it: the first run of lines that are not blank, each trimmed, joined by single spaces.
-/

namespace Avro.Text

/-- The lines of a text. What follows the last line feed is a line of its own unless it is empty. -/
def lines : List Char → List (List Char)
  | [] => []
  | '\n' :: r => [] :: lines r
  | '\r' :: '\n' :: r => [] :: lines r
  | c :: r =>
    match lines r with
    | [] => [[c]]
    | l :: ls => (c :: l) :: ls

/-- The trimmed lines of the first paragraph. -/
def paragraphLines (s : List Char) : List (List Char) :=
  (((lines s).map trim).dropWhile List.isEmpty).takeWhile fun l => !l.isEmpty

/-- The first paragraph on one line; `none` if every line is blank. -/
def firstParagraph (doc : String) : Option String :=
  match paragraphLines doc.toList with
  | [] => none
  | ls => some (String.ofList ([' '].intercalate ls))

end Avro.Text
