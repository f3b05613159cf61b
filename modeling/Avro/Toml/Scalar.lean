import Avro.Binary64.Range
import Avro.Calendar
import Avro.Text.Digits
import Avro.Toml.Text

/-!
# Numbers, dates and times in a TOML document

No setting is a number or a date, but a document may hold them where no setting is read. So the readers of this module
only tell the characters behind one (`skipScalar?`); `none` if the front of the characters is none, or one that is
out of range.
-/

namespace Avro.Toml

open Text (isDigitOf ofDigits splitSign)

/-! ## Numbers -/

/-- Digits of the base, with single underscores between some of them. -/
def digits? (base : Nat) : Reader (List Char)
  | [] => none
  | c :: '_' :: r => if isDigitOf base c then (digits? base r).map fun (ds, r) => (c :: ds, r) else none
  | c :: r =>
    if !isDigitOf base c then none
    else if r.head?.any (isDigitOf base) then (digits? base r).map fun (ds, r) => (c :: ds, r)
    else some ([c], r)

/-- The whole part of a decimal number: a zero, or digits that begin with another one. -/
def whole? : Reader (List Char)
  | '0' :: r => some (['0'], r)
  | s => digits? 10 s

/-- The digits behind a point, if there is a point. -/
def places? : Reader (List Char)
  | '.' :: r => digits? 10 r
  | s => some ([], s)

/-- The power of ten behind its mark, if there is one. -/
def power? : Reader (Option Int)
  | [] => some (none, [])
  | c :: r =>
    if c = 'e' ∨ c = 'E' then
      let (negative, r) := splitSign r
      (digits? 10 r).map fun (ds, r) =>
        (some (if negative then -(ofDigits 10 ds : Int) else ofDigits 10 ds), r)
    else some (none, c :: r)

/-- The integers from `-integerBound` on and below `integerBound` have 64 bits. -/
def integerBound : Nat := 0x8000000000000000

/--
The characters behind a decimal number. Without a point and a power of ten it is an integer, of 64 bits; otherwise a
positive one must not be too great for a finite number, while a negative one may.
-/
def skipDecimal? (s : List Char) : Option (List Char) := do
  let (negative, s) := splitSign s
  let (whole, s) ← whole? s
  let (places, s) ← places? s
  let (power, s) ← power? s
  let n := ofDigits 10 (whole ++ places)
  let fits :=
    if places.isEmpty && power.isNone then n < integerBound || (negative && n == integerBound)
    else negative || !Binary64.overflows n (power.getD 0 - places.length)
  if fits then some s else none

/-- The base that a letter behind a zero stands for. -/
def base? : Char → Option Nat
  | 'x' => some 16
  | 'o' => some 8
  | 'b' => some 2
  | _ => none

/-- The characters behind an integer in another base than ten, which has no sign. -/
def skipBased? : List Char → Option (List Char)
  | '0' :: c :: r => do
    let base ← base? c
    let (ds, r) ← digits? base r
    if ofDigits base ds < integerBound then some r else none
  | _ => none

/-- The characters behind an infinity or what is not a number. -/
def skipSpecial? (s : List Char) : Option (List Char) :=
  match (splitSign s).2 with
  | 'i' :: 'n' :: 'f' :: r => some r
  | 'n' :: 'a' :: 'n' :: r => some r
  | _ => none

/-! ## Dates and times -/

/-- A number of two digits. -/
def twoDigits? : Reader Nat
  | a :: b :: r => if isDigitOf 10 a && isDigitOf 10 b then some (ofDigits 10 [a, b], r) else none
  | _ => none

/-- A number of two digits behind a mark. -/
def marked? (mark : Char) : Reader Nat
  | c :: r => if c = mark then twoDigits? r else none
  | [] => none

/-- The characters behind a date, whose year has four digits. -/
def skipDate? (s : List Char) : Option (List Char) := do
  let (century, s) ← twoDigits? s
  let (year, s) ← twoDigits? s
  let (month, s) ← marked? '-' s
  let (day, s) ← marked? '-' s
  if (Date.ofYmd? (100 * century + year) month day).isSome then some s else none

/-- The characters behind a point and the digits that follow it, if there is a point. -/
def skipFraction? : List Char → Option (List Char)
  | '.' :: r => if (r.takeWhile (isDigitOf 10)).isEmpty then none else some (r.dropWhile (isDigitOf 10))
  | s => some s

/-- The characters behind a time of day. Any minute may have one second more. -/
def skipTime? (s : List Char) : Option (List Char) := do
  let (hour, s) ← twoDigits? s
  let (minute, s) ← marked? ':' s
  let (second, s) ← marked? ':' s
  if hour < 24 ∧ minute < 60 ∧ second ≤ 60 then skipFraction? s else none

/-- The characters behind a distance from UTC, if there is one. -/
def skipOffset? : List Char → Option (List Char)
  | [] => some []
  | c :: r =>
    if c = 'Z' ∨ c = 'z' then some r
    else if c = '+' ∨ c = '-' then do
      let (hour, r) ← twoDigits? r
      let (minute, r) ← marked? ':' r
      if hour < 24 ∧ minute < 60 then some r else none
    else some (c :: r)

/-- What stands between a date and a time of day. -/
def isDateEnd (c : Char) : Bool := c == 'T' || c == 't' || c == ' '

/-- The characters behind a date, a time of day, or both, in which case a distance from UTC may follow. -/
def skipMoment? (s : List Char) : Option (List Char) :=
  match skipDate? s with
  | none => skipTime? s
  | some [] => some []
  | some (c :: r) =>
    match skipTime? r with
    | some r' => if isDateEnd c then skipOffset? r' else some (c :: r)
    | none => some (c :: r)

/-- The characters behind a number, a date or a time. -/
def skipScalar? (s : List Char) : Option (List Char) :=
  [skipMoment?, skipBased?, skipSpecial?, skipDecimal?].findSome? fun skip? => skip? s

end Avro.Toml
