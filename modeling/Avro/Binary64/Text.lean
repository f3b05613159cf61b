import Avro.Binary64.Shortest

/-!
# The text of a number

Numbers from `1e-5` up to `1e16` are written with all their places and at least one digit after the point; others as
one digit, a point and the rest, and a power of ten with its sign.
-/

namespace Avro.Binary64

/-- Which powers of ten a written number shows by its places. -/
structure Layout where
  /-- The least power of ten of the first digit that is written out. -/
  least : Int
  /-- The greatest power of ten of the first digit that is written out. -/
  greatest : Int

/-- From `0.00001` to `9999999999999999.0` the places are written out. -/
def layout : Layout := ⟨-5, 15⟩

/-- The digits with a point behind the first `places` of them, and zeros where digits are missing. -/
def plain (digits : List Char) (places : Int) : List Char :=
  if places ≤ 0 then ['0', '.'] ++ List.replicate (-places).toNat '0' ++ digits
  else
    let n := places.toNat
    let whole := digits.take n ++ List.replicate (n - digits.length) '0'
    let part := digits.drop n
    whole ++ '.' :: if part.isEmpty then ['0'] else part

/-- The digits with a point behind the first of them, and the power of ten `e`. -/
def scientific (digits : List Char) (e : Int) : List Char :=
  let part := digits.drop 1
  digits.take 1 ++ (if part.isEmpty then [] else '.' :: part)
    ++ 'e' :: (if e < 0 then '-' else '+') :: Nat.toDigits 10 e.natAbs

/-- The shortest text that reads back as the finite number. -/
def text (x : Binary64) : List Char :=
  let (d, k) := x.shortest
  let digits := Nat.toDigits 10 d
  let e := k + (digits.length : Int) - 1
  let body := if layout.least ≤ e ∧ e ≤ layout.greatest then plain digits (e + 1) else scientific digits e
  if x.isNegative then '-' :: body else body

end Avro.Binary64
