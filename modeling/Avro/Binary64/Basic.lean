/-!
# Floating-point numbers of 64 bits

A `Binary64` is a number of the IEEE 754 format of that name, held as its bits. A finite one is
`mantissa · 2 ^ exponent` with its sign; the statements about it are statements about these two integers.
-/

namespace Avro

/-- A number of the format binary64, by its bits: sign, eleven bits of exponent, fifty-two of fraction. -/
structure Binary64 where
  bits : UInt64
deriving DecidableEq

namespace Binary64

/-- The bit in front of the fraction, `2 ^ 52`. -/
def leadingBit : Nat := 0x10000000000000

/-- Whether the sign bit is set. Zero has a sign too. -/
def isNegative (x : Binary64) : Bool := 0x8000000000000000 ≤ x.bits.toNat

/-- The exponent field. -/
def biased (x : Binary64) : Nat := x.bits.toNat / leadingBit % 0x800

/-- The fraction field. -/
def fraction (x : Binary64) : Nat := x.bits.toNat % leadingBit

/-- Neither infinite nor a NaN. -/
def isFinite (x : Binary64) : Bool := x.biased != 2047

def isNaN (x : Binary64) : Bool := x.biased == 2047 && x.fraction != 0

def isZero (x : Binary64) : Bool := x.biased == 0 && x.fraction == 0

/-- The integer that a power of two scales: the fraction with the bit in front of it, which a subnormal number lacks. -/
def mantissa (x : Binary64) : Nat := if x.biased = 0 then x.fraction else leadingBit + x.fraction

/-- The power of two that scales the mantissa. -/
def exponent (x : Binary64) : Int := if x.biased = 0 then -1074 else (x.biased : Int) - 1075

/-- Equality of numbers: a NaN equals nothing, and the two zeros are equal. -/
def sameNumber (x y : Binary64) : Bool :=
  !x.isNaN && !y.isNaN && (x.bits == y.bits || (x.isZero && y.isZero))

end Binary64
end Avro
