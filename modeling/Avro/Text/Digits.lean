/-!
# Digits

The values of digits in bases up to sixteen, where the case of letters makes no difference, and the number that a list
of digits writes (`ofDigits`).
-/

namespace Avro.Text

/-- The value of a hexadecimal digit of either case. -/
def digitValue? (c : Char) : Option Nat :=
  let n := c.toNat
  if 0x30 ≤ n ∧ n ≤ 0x39 then some (n - 0x30)
  else if 0x41 ≤ n ∧ n ≤ 0x46 then some (n - 0x37)
  else if 0x61 ≤ n ∧ n ≤ 0x66 then some (n - 0x57)
  else none

/-- Whether the character is a digit of the base. -/
def isDigitOf (base : Nat) (c : Char) : Bool := (digitValue? c).any fun d => d < base

/-- The number that digits of the base write, the highest first. -/
def ofDigits (base : Nat) (s : List Char) : Nat := s.foldl (fun n c => base * n + (digitValue? c).getD 0) 0

/-- Takes one sign off the text: whether it is a minus, and the rest. -/
def splitSign : List Char → Bool × List Char
  | '-' :: r => (true, r)
  | '+' :: r => (false, r)
  | r => (false, r)

end Avro.Text
