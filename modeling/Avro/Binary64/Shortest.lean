import Avro.Binary64.Basic

/-!
# Shortest decimal digits

The reals that round to a finite number form an interval around it (`lowerBound`, `upperBound`; the ends belong to it if
the mantissa is even). `shortest` takes the coarsest power of ten of which a multiple lies in that interval, and of
its multiples there the nearest to the number; of two equally near, the even one. So no decimal with fewer digits
reads back as the same number. All arithmetic is on naturals.
-/

namespace Avro.Binary64

/-- The numerator of four times the number's magnitude, over `denominator`. -/
def numerator (x : Binary64) : Nat := 4 * x.mantissa * Nat.pow 2 x.exponent.toNat

/-- The denominator of four times the number's magnitude. -/
def denominator (x : Binary64) : Nat := Nat.pow 2 (-x.exponent).toNat

/-- The least numerator of the interval. At a power of two the next number below is only half as far. -/
def lowerBound (x : Binary64) : Nat :=
  (4 * x.mantissa - if x.fraction = 0 ∧ 1 < x.biased then 1 else 2) * Nat.pow 2 x.exponent.toNat

/-- The greatest numerator of the interval. -/
def upperBound (x : Binary64) : Nat := (4 * x.mantissa + 2) * Nat.pow 2 x.exponent.toNat

/-- Whether the numerator `n`, over the denominator times `scale`, rounds to the number. -/
def roundsHere (x : Binary64) (scale n : Nat) : Bool :=
  if x.mantissa % 2 = 0 then x.lowerBound * scale ≤ n && n ≤ x.upperBound * scale
  else x.lowerBound * scale < n && n < x.upperBound * scale

/-- The multiple `d` of `10 ^ k` nearest to the number, among the two next to it, that rounds to the number. -/
def onGrid? (x : Binary64) (k : Int) : Option Nat :=
  let scale := Nat.pow 10 (-k).toNat
  let unit := 4 * x.denominator * Nat.pow 10 k.toNat
  let n := x.numerator * scale
  let d := n / unit
  let r := n % unit
  let below := x.roundsHere scale (d * unit)
  let above := x.roundsHere scale ((d + 1) * unit)
  if below && above then
    some (if 2 * r < unit || (2 * r == unit && d % 2 == 0) then d else d + 1)
  else if below then some d
  else if above then some (d + 1)
  else none

/-- The powers of ten on whose grids to look, the coarsest first. -/
def gridExponents : List Int := (List.range 633).map fun (i : Nat) => 308 - (i : Int)

/-- The decimal `d · 10 ^ k` with the fewest digits that reads back as the magnitude of the number. -/
def shortest (x : Binary64) : Nat × Int :=
  if x.isZero then (0, 0)
  else (gridExponents.findSome? fun k => (x.onGrid? k).map fun d => (d, k)).getD (0, 0)

end Avro.Binary64
