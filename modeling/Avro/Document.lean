/-!
# Settings documents

A `Document` is what a text of settings says: texts and truth values in lists and tables. Its form does not depend on
the format of the text, but what counts as a setting does (`Document.Format`).
-/

namespace Avro

/-- A value of a settings document. -/
inductive Document where
  /-- The absence of a value, which some formats can write. -/
  | void
  | bool (b : Bool)
  | text (s : String)
  /-- A value of a kind that no setting has: a number, a date, a time of day. -/
  | other
  | list (items : List Document)
  | table (entries : List (String × Document))

namespace Document

instance : Inhabited Document := ⟨void⟩

/-- A truth value. -/
def bool? : Document → Option Bool
  | bool b => some b
  | _ => none

/-- A text. -/
def text? : Document → Option String
  | text s => some s
  | _ => none

/-- The formats of texts of settings. -/
inductive Format where
  /-- The absence of a value has a word of its own, and a list may not be longer than what is read from it. -/
  | json
  /-- An empty list or table says that there is no value, and a list may go on behind what is read from it. -/
  | toml
deriving DecidableEq

/-- Nothing, in the way that the format says it. -/
def isVoid : Format → Document → Bool
  | .json, void => true
  | .toml, list items => items.isEmpty
  | .toml, table entries => entries.isEmpty
  | _, _ => false

/-- One of a set of choices by its name. The name may also be the only key of a table that says no more about it. -/
def choice? {α : Type} (format : Format) (ofName? : String → Option α) : Document → Option α
  | text s => ofName? s
  | table [(key, v)] => if v.isVoid format then ofName? key else none
  | _ => none

/-- The items of a list, if each of them is good. -/
def items? {α : Type} (read? : Document → Option α) : Document → Option (List α)
  | list items => items.mapM read?
  | _ => none

end Document
end Avro
