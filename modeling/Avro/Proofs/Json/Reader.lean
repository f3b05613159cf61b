import Avro.Json.Basic
import Avro.Text.Digits
import Mathlib.Data.List.TakeDrop

/-!
# A reader of JSON texts

`Json.read?` reads any JSON text. It cuts the text into tokens (`lex`) and takes a value off the tokens, with a stack of
the arrays and objects around it that are not finished yet (`readValue`, `readAfter`). Strings are read with their escapes
resolved, and numbers are kept as they are written: a `RawJson` has the text of a number in place of its value. If a key
is repeated in an object, the first entry gives the place and the last one the value.
-/

namespace Avro

/-! ## Values with numbers as they are written -/

/-- A JSON value with the text of each number. -/
inductive RawJson where
  | null
  | bool (b : Bool)
  | number (text : List Char)
  | str (s : String)
  | arr (items : List RawJson)
  | obj (entries : List (String × RawJson))

namespace RawJson

/-- Sets the value of a key. A key that is there keeps its place; a new one comes last. -/
def put : List (String × RawJson) → String → RawJson → List (String × RawJson)
  | [], key, value => [(key, value)]
  | (k, v) :: es, key, value => if k = key then (k, value) :: es else (k, v) :: put es key value

end RawJson

namespace Json

/-! ## Strings -/

/-- The number that four hexadecimal digits write. -/
def codeUnit? (a b c d : Char) : Option Nat := do
  let a ← Text.digitValue? a
  let b ← Text.digitValue? b
  let c ← Text.digitValue? c
  let d ← Text.digitValue? d
  pure (((a * 16 + b) * 16 + c) * 16 + d)

/-- The character for which a letter stands behind a backslash. -/
def unescaped? : Char → Option Char
  | '"' => some '"'
  | '\\' => some '\\'
  | '/' => some '/'
  | 'b' => some '\x08'
  | 'f' => some '\x0c'
  | 'n' => some '\n'
  | 'r' => some '\r'
  | 't' => some '\t'
  | _ => none

/-- Whether the number is the first half of a pair of code units for one character. -/
def isHighHalf (n : Nat) : Bool := 0xD800 ≤ n && n < 0xDC00

/-- Whether the number is the second half of such a pair. -/
def isLowHalf (n : Nat) : Bool := 0xDC00 ≤ n && n < 0xE000

/-- The character of a code unit, where a first half may have been read before. -/
def joined? : Option Nat → Nat → Option Char
  | none, n => if isHighHalf n || isLowHalf n then none else some (Char.ofNat n)
  | some high, n => if isLowHalf n then some (Char.ofNat (0x10000 + (high - 0xD800) * 0x400 + (n - 0xDC00))) else none

/-- Puts a character in front of the string that is read behind it. -/
def prepend (c : Char) (read : Option (List Char × List Char)) : Option (List Char × List Char) :=
  read.map fun p => (c :: p.1, p.2)

/-- Reads a string behind the quote that opens it: its characters, and the text behind the quote that closes it. Just
before, the first half `high` of a pair may have been read. -/
def readString (high : Option Nat) : List Char → Option (List Char × List Char)
  | [] => none
  | '"' :: r => if high.isNone then some ([], r) else none
  | '\\' :: 'u' :: u :: v :: w :: x :: r =>
    (codeUnit? u v w x).bind fun n =>
      if isHighHalf n && high.isNone then readString (some n) r
      else (joined? high n).bind fun c => prepend c (readString none r)
  | '\\' :: e :: r => (unescaped? e).bind fun c => if high.isNone then prepend c (readString none r) else none
  | c :: r => if high.isNone && 0x20 ≤ c.toNat && c != '\\' then prepend c (readString none r) else none

theorem of_prepend {c : Char} {read : Option (List Char × List Char)} {s rest : List Char}
    (h : prepend c read = some (s, rest)) : ∃ s', read = some (s', rest) := by
  obtain ⟨⟨s', _⟩, hread, heq⟩ := Option.map_eq_some_iff.mp h
  cases heq
  exact ⟨s', hread⟩

/-- What follows a string is shorter than the text with the string. -/
theorem length_of_readString {high : Option Nat} {cs s rest : List Char} (h : readString high cs = some (s, rest)) :
    rest.length < cs.length := by
  fun_induction readString high cs generalizing s with
  | case1 | case3 => cases h
  | case2 =>
    cases h
    exact Nat.lt_succ_self _
  | case4 high u v w x r ih ih' =>
    simp only [List.length_cons]
    obtain ⟨n, -, h⟩ := Option.bind_eq_some_iff.mp h
    split at h
    · have hlt := ih n h
      omega
    · obtain ⟨c, -, h⟩ := Option.bind_eq_some_iff.mp h
      obtain ⟨s', h⟩ := of_prepend h
      have hlt := ih' h
      omega
  | case5 high e r _ ih =>
    simp only [List.length_cons]
    obtain ⟨c, -, h⟩ := Option.bind_eq_some_iff.mp h
    split at h
    · obtain ⟨s', h⟩ := of_prepend h
      have hlt := ih h
      omega
    · cases h
  | case6 =>
    rename_i ih
    obtain ⟨s', h⟩ := of_prepend h
    exact Nat.lt_succ_of_lt (ih h)
  | case7 => cases h

/-! ## Tokens -/

/-- The parts that a text is made of. -/
inductive Token where
  | openArr
  | closeArr
  | openObj
  | closeObj
  | comma
  | colon
  | str (s : String)
  /-- The name of a constant, or a number. -/
  | word (cs : List Char)

/-- Whether the character may stand between tokens. -/
def isSpace (c : Char) : Bool := c == ' ' || c == '\t' || c == '\n' || c == '\r'

/-- The token that is one character. -/
def mark? : Char → Option Token
  | '[' => some .openArr
  | ']' => some .closeArr
  | '{' => some .openObj
  | '}' => some .closeObj
  | ',' => some .comma
  | ':' => some .colon
  | _ => none

/-- Whether the character may be part of a word. -/
def isWordChar (c : Char) : Bool := !isSpace c && (mark? c).isNone && c != '"'

/-- The tokens of a text. A word goes on to the next space, mark or string. -/
def lex : List Char → Option (List Token)
  | [] => some []
  | c :: r =>
    if isSpace c then lex r
    else
      match mark? c with
      | some t => (lex r).map (t :: ·)
      | none =>
        if c = '"' then
          match _h : readString none r with
          | some (s, rest) => (lex rest).map (.str (String.ofList s) :: ·)
          | none => none
        else (lex (r.dropWhile isWordChar)).map (.word (c :: r.takeWhile isWordChar) :: ·)
termination_by cs => cs.length
decreasing_by
  · exact Nat.lt_succ_self _
  · exact Nat.lt_succ_self _
  · exact Nat.lt_succ_of_lt (length_of_readString _h)
  · exact Nat.lt_succ_of_le (List.dropWhile_suffix _).length_le

/-! ## Words -/

/-- One digit or more, and nothing else. -/
def isDigits (cs : List Char) : Bool := !cs.isEmpty && cs.all Char.isDigit

/-- Digits without a zero in front of others. -/
def isWhole (cs : List Char) : Bool := isDigits cs && (cs == ['0'] || cs.head? != some '0')

/-- The power of ten of a number, if it has one. -/
def isExponent : List Char → Bool
  | [] => true
  | e :: r =>
    (e == 'e' || e == 'E') &&
      match r with
      | '+' :: r => isDigits r
      | '-' :: r => isDigits r
      | r => isDigits r

/-- What may follow the whole part of a number. -/
def isFraction : List Char → Bool
  | '.' :: r => isDigits (r.takeWhile Char.isDigit) && isExponent (r.dropWhile Char.isDigit)
  | r => isExponent r

/-- Whether the text is a number. -/
def isNumber : List Char → Bool
  | '-' :: r => isWhole (r.takeWhile Char.isDigit) && isFraction (r.dropWhile Char.isDigit)
  | r => isWhole (r.takeWhile Char.isDigit) && isFraction (r.dropWhile Char.isDigit)

/-- The value that a word stands for. -/
def constant? (cs : List Char) : Option RawJson :=
  if cs = ['n', 'u', 'l', 'l'] then some .null
  else if cs = ['t', 'r', 'u', 'e'] then some (.bool true)
  else if cs = ['f', 'a', 'l', 's', 'e'] then some (.bool false)
  else if isNumber cs then some (.number cs)
  else none

/-! ## Values -/

/-- An array or object that is not finished: what it has so far, and the key that waits for a value. -/
inductive Frame where
  | arr (items : List RawJson)
  | obj (entries : List (String × RawJson)) (key : String)

mutual

/-- Reads a value inside of unfinished arrays and objects, and all that follows it. -/
def readValue (fs : List Frame) : List Token → Option RawJson
  | .word cs :: ts =>
    match constant? cs with
    | some v => readAfter fs v ts
    | none => none
  | .str s :: ts => readAfter fs (.str s) ts
  | .openArr :: .closeArr :: ts => readAfter fs (.arr []) ts
  | .openArr :: ts => readValue (.arr [] :: fs) ts
  | .openObj :: .closeObj :: ts => readAfter fs (.obj []) ts
  | .openObj :: .str key :: .colon :: ts => readValue (.obj [] key :: fs) ts
  | _ => none

/-- Goes on behind a value inside of unfinished arrays and objects. -/
def readAfter : List Frame → RawJson → List Token → Option RawJson
  | [], v, [] => some v
  | .arr items :: fs, v, .comma :: ts => readValue (.arr (items ++ [v]) :: fs) ts
  | .arr items :: fs, v, .closeArr :: ts => readAfter fs (.arr (items ++ [v])) ts
  | .obj es key :: fs, v, .comma :: .str next :: .colon :: ts => readValue (.obj (RawJson.put es key v) next :: fs) ts
  | .obj es key :: fs, v, .closeObj :: ts => readAfter fs (.obj (RawJson.put es key v)) ts
  | _, _, _ => none

end

/-- The value that a text writes, if it is a JSON text. -/
def read? (text : String) : Option RawJson := (lex text.toList).bind (readValue [])

end Json
end Avro
