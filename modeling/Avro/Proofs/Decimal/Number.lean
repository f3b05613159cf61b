import Avro.Text.Digits
import Mathlib

/-!
# Numbers in decimal digits

The number of a text of digits (`number`), and how many of the digits count: without the zeros in front, there are at most
`p` of them if and only if the number is below `10 ^ p` (`length_dropWhile_le_iff`).
-/

namespace Avro.Decimal

/-- The number that decimal digits write, the highest first. -/
abbrev number (cs : List Char) : Nat := Nat.ofDigitChars 10 cs 0

variable {cs ds : List Char} {c : Char}

theorem isDigit_iff : c.isDigit = true ↔ 0x30 ≤ c.toNat ∧ c.toNat ≤ 0x39 := by
  simp only [Char.isDigit, Bool.and_eq_true, decide_eq_true_eq]
  exact Iff.rfl

theorem isDigitOf_ten : Text.isDigitOf 10 = Char.isDigit := by
  funext c
  rw [Bool.eq_iff_iff, isDigit_iff]
  unfold Text.isDigitOf Text.digitValue?
  simp only
  split_ifs with h₁ h₂ h₃
  all_goals
    simp only [Option.any_some, Option.any_none, decide_eq_true_eq, Bool.false_eq_true, false_iff]
    omega

theorem digitValue?_of_isDigit (hc : c.isDigit = true) :
    Text.digitValue? c = some (c.toNat - '0'.toNat) ∧ c.toNat - '0'.toNat < 10 := by
  have hzero : '0'.toNat = 0x30 := rfl
  have hbounds := isDigit_iff.mp hc
  unfold Text.digitValue?
  rw [if_pos hbounds, hzero]
  exact ⟨rfl, by omega⟩

/-- What digits write in base ten is their number. -/
theorem ofDigits_eq_number (hcs : ∀ c ∈ cs, c.isDigit = true) : Text.ofDigits 10 cs = number cs := by
  have hfold : ∀ {cs : List Char}, (∀ c ∈ cs, c.isDigit = true) → ∀ n,
      cs.foldl (fun n c => 10 * n + (Text.digitValue? c).getD 0) n = Nat.ofDigitChars 10 cs n := by
    intro cs hcs
    induction cs with
    | nil => exact fun n => rfl
    | cons c cs ih =>
      intro n
      obtain ⟨hc, hcs⟩ := List.forall_mem_cons.mp hcs
      rw [List.foldl_cons, ih hcs, Nat.ofDigitChars_cons, (digitValue?_of_isDigit hc).1]
      rfl
  exact hfold hcs 0

theorem number_append (cs ds : List Char) : number (cs ++ ds) = 10 ^ ds.length * number cs + number ds := by
  rw [number, Nat.ofDigitChars_append, Nat.ofDigitChars_eq_ofDigitChars_zero]

theorem number_cons (c : Char) (cs : List Char) :
    number (c :: cs) = 10 ^ cs.length * (c.toNat - '0'.toNat) + number cs := by
  rw [number, Nat.ofDigitChars_cons, Nat.ofDigitChars_eq_ofDigitChars_zero, Nat.mul_zero, Nat.zero_add]

/-- Zeros behind the digits. -/
theorem number_append_zeros (cs : List Char) (n : Nat) : number (cs ++ List.replicate n '0') = number cs * 10 ^ n := by
  rw [number_append, List.length_replicate, number, number, Nat.ofDigitChars_replicate_zero, mul_comm]
  rfl

theorem number_lt (hcs : ∀ c ∈ cs, c.isDigit = true) : number cs < 10 ^ cs.length := by
  induction cs with
  | nil => decide
  | cons c cs ih =>
    obtain ⟨hc, hcs⟩ := List.forall_mem_cons.mp hcs
    have hdigit := (digitValue?_of_isDigit hc).2
    have hrest := ih hcs
    have hle : 10 ^ cs.length * (c.toNat - '0'.toNat) ≤ 10 ^ cs.length * 9 := Nat.mul_le_mul_left _ (by omega)
    rw [number_cons, List.length_cons, pow_succ]
    omega

/-- Zeros in front of the digits do not count. -/
theorem number_dropWhile (cs : List Char) : number (cs.dropWhile (· == '0')) = number cs := by
  induction cs with
  | nil => rfl
  | cons c cs ih =>
    rw [List.dropWhile_cons]
    split
    · rename_i hc
      rw [ih, number_cons, eq_of_beq hc]
      simp
    · rfl

/-- Where the first digit is no zero, the number has as many digits as the text. -/
theorem le_number (hc : c.isDigit = true) (hzero : c ≠ '0') (cs : List Char) : 10 ^ cs.length ≤ number (c :: cs) := by
  have hpos : 1 ≤ c.toNat - '0'.toNat := by
    have hne : c.toNat ≠ '0'.toNat := fun h => hzero (Char.toNat_inj.mp h)
    have hle : '0'.toNat ≤ c.toNat := (isDigit_iff.mp hc).1
    omega
  rw [number_cons]
  exact le_trans (Nat.le_mul_of_pos_right _ hpos) (Nat.le_add_right _ _)

/-- **At most `p` digits count if and only if the number is below `10 ^ p`.** -/
theorem length_dropWhile_le_iff (hcs : ∀ c ∈ cs, c.isDigit = true) (p : Nat) :
    (cs.dropWhile (· == '0')).length ≤ p ↔ number cs < 10 ^ p := by
  have hrest : ∀ c ∈ cs.dropWhile (· == '0'), c.isDigit = true :=
    fun c hc => hcs c ((List.dropWhile_suffix _).subset hc)
  rw [← number_dropWhile cs]
  constructor
  · intro hle
    exact lt_of_lt_of_le (number_lt hrest) (Nat.pow_le_pow_right (by decide) hle)
  · intro hlt
    cases hds : cs.dropWhile (· == '0') with
    | nil => exact Nat.zero_le p
    | cons c ds =>
      have hzero : c ≠ '0' := by
        have hhead := List.head?_dropWhile_not (· == '0') cs
        simpa [hds] using hhead
      rw [hds] at hrest hlt
      have hge := le_number (hrest c List.mem_cons_self) hzero ds
      exact (Nat.pow_lt_pow_iff_right (by decide)).mp (lt_of_le_of_lt hge hlt)

end Avro.Decimal
