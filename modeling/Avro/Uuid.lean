import Avro.Text.Digits

/-!
# Universally unique identifiers

A `Uuid` is a number of 128 bits. `Uuid.text` is its canonical text, 32 lower-case digits in groups of 8, 4, 4, 4 and
12; `Uuid.parse?` reads that text, the same in braces or after `urn:uuid:`, and the digits alone, in either case of
letters.
-/

namespace Avro

/-- An identifier of 128 bits. -/
structure Uuid where
  value : BitVec 128
deriving DecidableEq

namespace Uuid

/-- The number that the digits write, after `acc`. -/
def readDigits? (acc : Nat) : List Char → Option Nat
  | [] => some acc
  | c :: cs =>
    match Text.digitValue? c with
    | some d => readDigits? (16 * acc + d) cs
    | none => none

/-- The lowest `count` hexadecimal digits of a number, the highest first. -/
def digits (n : Nat) : Nat → List Char
  | 0 => []
  | count + 1 => digits (n / 16) count ++ [Nat.digitChar (n % 16)]

@[simp] theorem length_digits (n count : Nat) : (digits n count).length = count := by
  induction count generalizing n with
  | zero => rfl
  | succ count ih => simp [digits, ih]

/-- Thirty-two digits and no more. -/
def ofDigits? (s : List Char) : Option Uuid :=
  if s.length = 32 then (readDigits? 0 s).map fun n => ⟨BitVec.ofNat 128 n⟩ else none

/-- The digits of the grouped form, with its hyphens gone; `none` if a hyphen is not in its place. -/
def ungroup? (s : List Char) : Option (List Char) :=
  if s.length = 36 ∧ s[8]? = some '-' ∧ s[13]? = some '-' ∧ s[18]? = some '-' ∧ s[23]? = some '-' then
    some (s.take 8 ++ (s.drop 9).take 4 ++ (s.drop 14).take 4 ++ (s.drop 19).take 4 ++ s.drop 24)
  else none

/-- What stands in front of the grouped form as a resource name. -/
def urn : List Char := ['u', 'r', 'n', ':', 'u', 'u', 'i', 'd', ':']

/-- The grouped form inside what may surround it: braces, or the prefix of a resource name in any case. -/
def unwrap (s : List Char) : List Char :=
  if s.length = 38 ∧ s.head? = some '{' ∧ s.getLast? = some '}' then (s.drop 1).take 36
  else if s.length = 45 ∧ (s.take 9).map Char.toLower = urn then s.drop 9
  else s

/-- Reads an identifier in one of its four forms. -/
def parse? (s : List Char) : Option Uuid :=
  if s.length = 32 then ofDigits? s else (ungroup? (unwrap s)).bind ofDigits?

/-- The canonical text. -/
def text (u : Uuid) : List Char :=
  let d := digits u.value.toNat 32
  d.take 8 ++ '-' :: (d.drop 8).take 4 ++ '-' :: (d.drop 12).take 4 ++ '-' :: (d.drop 16).take 4
    ++ '-' :: d.drop 20

theorem length_text (u : Uuid) : u.text.length = 36 := by simp [text]

end Uuid
end Avro
