/-!
# The end of the range

A decimal that lies too far beyond the greatest finite number has no finite number next to it: it rounds to infinity
(`overflows`).
-/

namespace Avro.Binary64

/-- The least real that rounds to infinity: halfway from the greatest finite number to `2 ^ 1024`. -/
def overflowBound : Nat := (Nat.pow 2 54 - 1) * Nat.pow 2 970

/--
Whether `m · 10 ^ e` rounds to infinity. The number of its places before the point decides, unless there are as many as
the bound has, which are 309.
-/
def overflows (m : Nat) (e : Int) : Bool :=
  let places := ((Nat.toDigits 10 m).length : Int) + e
  if m = 0 ∨ places < 309 then false
  else if 309 < places then true
  else overflowBound * Nat.pow 10 (-e).toNat ≤ m * Nat.pow 10 e.toNat

end Avro.Binary64
