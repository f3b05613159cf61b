import Avro.Text.Blank
import Avro.Text.Digits

/-!
# Decimal numbers

A decimal type has a precision, the number of digits it holds, and a scale, the number of them after the point. A value
of it is stored as its unscaled integer, in two's complement with the highest byte first and as few bytes as the
integer needs. `Decimal.unscaled` reads a literal, and `Decimal.bytes` writes the integer.
-/

namespace Avro

/-- Why parameters make no decimal type. -/
inductive DecimalFault where
  /-- The number of parameters is neither one nor two. -/
  | count (given : Nat)
  | precision (given : Int)
  | scale (given : Int)
  | scaleAbovePrecision (scale precision : Nat)
deriving DecidableEq

/-- Why a literal is no default of a decimal type. -/
inductive LiteralFault where
  /-- It is not a sign and digits with at most one point among them. -/
  | malformed
  | digits (given precision : Nat)
  | places (given scale : Nat)
  /-- The unscaled integer needs more than 128 bits. -/
  | tooLarge
deriving DecidableEq

/-- Precision and scale of a decimal type. A scale that is not given counts as zero. -/
structure Decimal where
  precision : Nat
  scale : Option Nat
deriving DecidableEq

namespace Decimal

/-- The parameters of a type are below this: they fit 32 bits. -/
def paramLimit : Int := 0x100000000

/-- The type of a list of parameters: precision, then scale if there is one. -/
def ofParams : List Int → Except DecimalFault Decimal
  | [p] =>
    if 1 ≤ p ∧ p < paramLimit then .ok ⟨p.toNat, none⟩ else .error (.precision p)
  | [p, s] =>
    if ¬(1 ≤ p ∧ p < paramLimit) then .error (.precision p)
    else if ¬(0 ≤ s ∧ s < paramLimit) then .error (.scale s)
    else if p < s then .error (.scaleAbovePrecision s.toNat p.toNat)
    else .ok ⟨p.toNat, some s.toNat⟩
  | params => .error (.count params.length)

/-- A literal in its parts: the digits before the point and those after it. -/
structure Literal where
  negative : Bool
  whole : List Char
  places : List Char
deriving DecidableEq

/-- The text up to the first point and the text behind it, which is empty if there is no point. -/
def splitPoint : List Char → List Char × List Char
  | [] => ([], [])
  | '.' :: r => ([], r)
  | c :: r => (c :: (splitPoint r).1, (splitPoint r).2)

/-- Reads a literal, with blanks around it. One side of the point may be without digits, but not both. -/
def literal? (text : List Char) : Option Literal :=
  let (negative, body) := Text.splitSign (Text.trim text)
  let (whole, places) := splitPoint body
  if whole.isEmpty && places.isEmpty then none
  else if (whole ++ places).all (Text.isDigitOf 10) then some ⟨negative, whole, places⟩
  else none

namespace Literal

/-- All digits of the literal, without the point. -/
def digits (l : Literal) : List Char := l.whole ++ l.places

/-- The number of digits from the first that is not zero; a zero counts as one digit. -/
def significant (l : Literal) : Nat := max 1 (l.digits.dropWhile (· == '0')).length

end Literal

/-- The greatest magnitude of an unscaled integer. -/
def magnitudeLimit : Nat := Nat.pow 2 127 - 1

/-- The number with `zeros` zeros behind its digits, if that is within the limit. -/
def shifted? (n zeros : Nat) : Option Nat :=
  if n = 0 then some 0
  else if 39 ≤ zeros then none
  else if n * Nat.pow 10 zeros ≤ magnitudeLimit then some (n * Nat.pow 10 zeros) else none

/-- The unscaled integer of a literal for the type. -/
def unscaled (d : Decimal) (text : List Char) : Except LiteralFault Int :=
  match literal? text with
  | none => .error .malformed
  | some l =>
    let scale := d.scale.getD 0
    if d.precision < l.significant then .error (.digits l.significant d.precision)
    else if scale < l.places.length then .error (.places l.places.length scale)
    else
      match shifted? (Text.ofDigits 10 l.digits) (scale - l.places.length) with
      | none => .error .tooLarge
      | some n => .ok (if l.negative then -(n : Int) else n)

/-- The two's complement bytes of an integer, as few as it needs, the highest first. -/
def bytes (i : Int) : List UInt8 :=
  if -128 ≤ i ∧ i < 128 then [(i % 256).toNat.toUInt8]
  else bytes (i / 256) ++ [(i % 256).toNat.toUInt8]
termination_by i.natAbs
decreasing_by omega

theorem bytes_ne_nil (i : Int) : bytes i ≠ [] := by
  unfold bytes
  split <;> simp

end Decimal
end Avro
