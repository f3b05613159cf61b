import Avro.Decimal
import Mathlib

/-!
# Two's complement

The value of bytes in two's complement, the highest byte first, is that of their digits in base 256, less a power of 256
if the highest bit is set (`signed?`). The bytes of an integer have it as their value (`signed?_bytes`), and no fewer bytes
have it (`length_bytes_le`): `n + 1` bytes are enough for just the integers of `8 * (n + 1)` bits
(`length_bytes_le_iff`).
-/

namespace Avro.Decimal

/-- The number that bytes write as digits in base 256, the highest first. -/
def unsigned (bs : List UInt8) : Nat := bs.foldl (fun n b => 256 * n + b.toNat) 0

/-- The integer that bytes write in two's complement, the highest first. There is none if there are no bytes. -/
def signed? : List UInt8 → Option Int
  | [] => none
  | b :: bs =>
    some (if b.toNat < 128 then unsigned (b :: bs) else unsigned (b :: bs) - 256 ^ (bs.length + 1))

variable {bs : List UInt8} {i : Int} {n : Nat}

theorem unsigned_concat (bs : List UInt8) (b : UInt8) : unsigned (bs ++ [b]) = 256 * unsigned bs + b.toNat := by
  simp [unsigned]

theorem signed?_singleton (b : UInt8) : signed? [b] = some (if b.toNat < 128 then (b.toNat : Int) else b.toNat - 256) := by
  simp [signed?, unsigned]

/-- One more byte behind the others. -/
theorem signed?_concat (h : signed? bs = some i) (b : UInt8) : signed? (bs ++ [b]) = some (256 * i + b.toNat) := by
  cases bs with
  | nil => cases h
  | cons a bs =>
    cases h
    have hcons := unsigned_concat (a :: bs) b
    rw [List.cons_append] at hcons
    rw [List.cons_append, signed?, hcons, List.length_append, List.length_singleton, pow_succ (256 : Int) (bs.length + 1)]
    split
    · push_cast
      rfl
    · push_cast
      congr 1
      ring

/-- The lowest byte of an integer. -/
theorem toNat_lowest (i : Int) : ((i % 256).toNat.toUInt8.toNat : Int) = i % 256 := by
  have hmod : (i % 256).toNat < 256 := by omega
  rw [show (i % 256).toNat.toUInt8.toNat = (i % 256).toNat % 256 from rfl, Nat.mod_eq_of_lt hmod]
  omega

/-- **The bytes of an integer have its value.** -/
theorem signed?_bytes (i : Int) : signed? (bytes i) = some i := by
  fun_induction bytes i with
  | case1 i h =>
    have hlowest := toNat_lowest i
    rw [signed?_singleton]
    congr 1
    split <;> omega
  | case2 i h ih =>
    rw [signed?_concat ih, toNat_lowest]
    congr 1
    omega

/-- `n + 1` bytes are enough for just the integers that they can hold. -/
theorem length_bytes_le_iff : (bytes i).length ≤ n + 1 ↔ -(128 * 256 ^ n) ≤ i ∧ i < 128 * 256 ^ n := by
  induction n generalizing i with
  | zero =>
    rw [bytes]
    split
    · simp_all
    · have hne : (bytes (i / 256)).length ≠ 0 := by simpa using bytes_ne_nil (i / 256)
      simp only [List.length_append, List.length_singleton]
      omega
  | succ n ih =>
    have hpow : (256 : Int) ^ (n + 1) = 256 * 256 ^ n := by rw [pow_succ, mul_comm]
    have hpos : (0 : Int) < 256 ^ n := by positivity
    rw [bytes, hpow]
    split
    · simp only [List.length_singleton]
      omega
    · rw [List.length_append, List.length_singleton, Nat.add_le_add_iff_right, ih]
      omega

/-- What bytes write is among the integers that they can hold. -/
theorem signed?_bounds (h : signed? bs = some i) :
    ∃ n, bs.length = n + 1 ∧ -(128 * 256 ^ n) ≤ i ∧ i < 128 * 256 ^ n := by
  induction bs using List.reverseRecOn generalizing i with
  | nil => cases h
  | append_singleton bs b ih =>
    have hb : b.toNat < 256 := b.toNat_lt
    cases bs with
    | nil =>
      rw [List.nil_append, signed?_singleton] at h
      cases h
      refine ⟨0, rfl, ?_⟩
      split <;> omega
    | cons a bs =>
      obtain ⟨j, hj⟩ : ∃ j, signed? (a :: bs) = some j := ⟨_, rfl⟩
      obtain ⟨n, hlength, hbounds⟩ := ih hj
      rw [signed?_concat hj] at h
      cases h
      have hpow : (256 : Int) ^ (n + 1) = 256 * 256 ^ n := by rw [pow_succ, mul_comm]
      refine ⟨n + 1, by rw [List.length_append, hlength, List.length_singleton], ?_⟩
      rw [hpow]
      omega

/-- **No fewer bytes have the value of an integer than its own bytes.** -/
theorem length_bytes_le (h : signed? bs = some i) : (bytes i).length ≤ bs.length := by
  obtain ⟨n, hlength, hbounds⟩ := signed?_bounds h
  rw [hlength]
  exact length_bytes_le_iff.mpr hbounds

end Avro.Decimal
