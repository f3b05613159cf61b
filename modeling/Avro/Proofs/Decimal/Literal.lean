import Avro.Decimal
import Avro.Proofs.Decimal.Number

/-!
# Literals and their values

A literal is perhaps a sign and then digits, with at most one point before, between or behind them, and denotes a
rational number (`Denotes`). The literals that are read are just those, with blanks around them, and they are read with
their values (`denotes_iff`). The unscaled integer of a literal is its value times a power of ten, if that is within the
limit and if neither the digits that count nor those behind the point are more than the type has (`unscaled_ok_iff`).
-/

namespace Avro.Decimal

/-! ## Values -/

/-- The text is one of digits, with at most one point, and the number its value. -/
inductive Magnitude : List Char → ℚ → Prop
  | whole {w : List Char} : w ≠ [] → (∀ c ∈ w, c.isDigit = true) → Magnitude w (number w)
  | point {w p : List Char} : w ++ p ≠ [] → (∀ c ∈ w ++ p, c.isDigit = true) →
      Magnitude (w ++ '.' :: p) (number w + number p / 10 ^ p.length)

/-- The text is a literal, and the number its value. -/
inductive Denotes : List Char → ℚ → Prop
  | unsigned {cs : List Char} {q : ℚ} : Magnitude cs q → Denotes cs q
  | plus {cs : List Char} {q : ℚ} : Magnitude cs q → Denotes ('+' :: cs) q
  | minus {cs : List Char} {q : ℚ} : Magnitude cs q → Denotes ('-' :: cs) (-q)

/-- The number of all digits of the literal, as if there were no point. -/
def Literal.number (l : Literal) : Nat := Decimal.number l.digits

/-- The value of a literal. -/
def Literal.value (l : Literal) : ℚ :=
  if l.negative then -(l.number / 10 ^ l.places.length) else l.number / 10 ^ l.places.length

variable {cs w p text : List Char} {q : ℚ} {l : Literal}

/-! ## Reading -/

theorem splitPoint_append (hw : '.' ∉ w) (p : List Char) : splitPoint (w ++ '.' :: p) = (w, p) := by
  induction w with
  | nil => rfl
  | cons c w ih =>
    obtain ⟨hc, hw⟩ := not_or.mp (List.mem_cons.not.mp hw)
    rw [List.cons_append, splitPoint, ih hw]
    exact fun h => hc h.symm

theorem splitPoint_of_notMem (hw : '.' ∉ w) : splitPoint w = (w, []) := by
  induction w with
  | nil => rfl
  | cons c w ih =>
    obtain ⟨hc, hw⟩ := not_or.mp (List.mem_cons.not.mp hw)
    rw [splitPoint, ih hw]
    exact fun h => hc h.symm

/-- There is no point in the text, or it is split at one. -/
theorem splitPoint_cases (cs : List Char) :
    splitPoint cs = (cs, []) ∨ cs = (splitPoint cs).1 ++ '.' :: (splitPoint cs).2 := by
  fun_induction splitPoint cs with
  | case1 => exact .inl rfl
  | case2 r => exact .inr rfl
  | case3 c r _ ih =>
    rcases ih with ih | ih
    · exact .inl (by rw [ih])
    · refine .inr ?_
      rw [List.cons_append, ← ih]

theorem dot_notMem (hw : ∀ c ∈ w, c.isDigit = true) : '.' ∉ w := fun h => absurd (hw _ h) (by decide)

/-- A text has the form of digits with at most one point if and only if its parts have one digit at least and nothing
else. -/
theorem magnitude_iff : Magnitude cs q ↔ (splitPoint cs).1 ++ (splitPoint cs).2 ≠ [] ∧
    (∀ c ∈ (splitPoint cs).1 ++ (splitPoint cs).2, c.isDigit = true) ∧
    number ((splitPoint cs).1 ++ (splitPoint cs).2) / 10 ^ (splitPoint cs).2.length = q := by
  have hvalue : ∀ w p : List Char, (number (w ++ p) / 10 ^ p.length : ℚ) = number w + number p / 10 ^ p.length := by
    intro w p
    rw [number_append]
    push_cast
    rw [add_div, mul_div_cancel_left₀ _ (by positivity)]
  constructor
  · intro h
    cases h with
    | whole hne hdigits =>
      rw [splitPoint_of_notMem (dot_notMem hdigits)]
      simpa using ⟨hne, hdigits⟩
    | point hne hdigits =>
      rw [splitPoint_append (dot_notMem fun c hc => hdigits c (List.mem_append_left _ hc))]
      exact ⟨hne, hdigits, hvalue _ _⟩
  · rintro ⟨hne, hdigits, rfl⟩
    rcases splitPoint_cases cs with hsplit | hsplit
    · rw [hsplit] at hne hdigits ⊢
      simp only [List.append_nil, List.length_nil, pow_zero, div_one] at hne hdigits ⊢
      exact .whole hne hdigits
    · rw [hvalue]
      have hpoint := Magnitude.point hne hdigits
      rwa [← hsplit] at hpoint

/-- No sign is among the digits. -/
theorem Magnitude.splitSign (h : Magnitude cs q) : Text.splitSign cs = (false, cs) := by
  have hhead : ∀ c ∈ cs.head?, c ≠ '-' ∧ c ≠ '+' := by
    intro c hc
    have hdigit : ∀ w : List Char, (∀ c ∈ w, c.isDigit = true) → c ∈ w.head? → c ≠ '-' ∧ c ≠ '+' := by
      intro w hw hc
      have hcw := hw c (List.mem_of_mem_head? hc)
      constructor <;> rintro rfl <;> cases hcw
    cases h with
    | whole _ hdigits => exact hdigit _ hdigits hc
    | @point w p _ hdigits =>
      cases w with
      | nil =>
        cases hc
        decide
      | cons a w => exact hdigit _ (fun c hc => hdigits c (List.mem_append_left p hc)) hc
  unfold Text.splitSign
  split
  · exact absurd rfl (hhead _ rfl).1
  · exact absurd rfl (hhead _ rfl).2
  · rfl

/-- A literal is a sign, which may be left out, and behind it digits with at most one point. -/
theorem denotes_iff_magnitude : Denotes cs q ↔
    Magnitude (Text.splitSign cs).2 (if (Text.splitSign cs).1 then -q else q) := by
  constructor
  · intro h
    cases h with
    | unsigned h =>
      rw [h.splitSign]
      exact h
    | plus h => exact h
    | minus h =>
      show Magnitude _ (- -_)
      rwa [neg_neg]
  · intro h
    unfold Text.splitSign at h
    split at h
    · have hminus := Denotes.minus h
      rwa [if_pos rfl, neg_neg] at hminus
    · exact .plus h
    · exact .unsigned h

/-- **The literals that are read are those that denote a number**, and they are read with their values. -/
theorem denotes_iff : Denotes (Text.trim text) q ↔ ∃ l, literal? text = some l ∧ l.value = q := by
  rw [denotes_iff_magnitude, magnitude_iff]
  simp only [literal?, isDigitOf_ten]
  generalize (Text.splitSign (Text.trim text)).1 = negative
  generalize splitPoint (Text.splitSign (Text.trim text)).2 = parts
  obtain ⟨w, p⟩ := parts
  have hvalue : Literal.value ⟨negative, w, p⟩ = q ↔
      (number (w ++ p) / 10 ^ p.length : ℚ) = if negative then -q else q := by
    cases negative
    · exact Iff.rfl
    · exact neg_eq_iff_eq_neg
  by_cases hne : w ++ p = []
  · obtain ⟨rfl, rfl⟩ := List.append_eq_nil_iff.mp hne
    simp
  · have hempty : ¬(w.isEmpty && p.isEmpty) = true := by simpa using hne
    rw [if_neg hempty]
    by_cases hdigits : ∀ c ∈ w ++ p, c.isDigit = true
    · rw [if_pos (List.all_eq_true.mpr hdigits), ← hvalue]
      simp only [Option.some.injEq, exists_eq_left']
      exact ⟨fun h => h.2.2, fun h => ⟨hne, hdigits, h⟩⟩
    · rw [if_neg (List.all_eq_true.not.mpr hdigits)]
      simp only [hdigits, false_and, and_false, reduceCtorEq, exists_false]

/-- The digits of a literal that is read are digits. -/
theorem isDigit_of_literal? (h : literal? text = some l) : ∀ c ∈ l.digits, c.isDigit = true := by
  simp only [literal?, isDigitOf_ten] at h
  split at h
  · cases h
  · split at h
    · rename_i hall
      cases h
      exact List.all_eq_true.mp hall
    · cases h

/-! ## Unscaled integers -/

variable {d : Decimal} {u : Int}

/-- At most as many digits count as the type has, if and only if the number of all digits has no more. -/
theorem significant_le_iff (hl : ∀ c ∈ l.digits, c.isDigit = true) {p : Nat} (hp : 1 ≤ p) :
    l.significant ≤ p ↔ l.number < 10 ^ p := by
  unfold Literal.significant Literal.number
  rw [← length_dropWhile_le_iff hl]
  omega

/-- The number with zeros behind it, if it is within the limit. -/
theorem shifted?_eq (n zeros : Nat) :
    shifted? n zeros = if n * 10 ^ zeros ≤ magnitudeLimit then some (n * 10 ^ zeros) else none := by
  simp only [shifted?, Nat.pow_eq]
  split_ifs with hn hle hzeros hle hle
  · simp [hn]
  · exact absurd (by simp [hn]) hle
  · -- a number that is not zero is above the limit with 39 zeros behind it
    have hpow : 10 ^ 39 ≤ 10 ^ zeros := Nat.pow_le_pow_right (by decide) hzeros
    have hlimit : magnitudeLimit < 10 ^ 39 := by decide
    have hmul : 10 ^ zeros ≤ n * 10 ^ zeros := Nat.le_mul_of_pos_left _ (Nat.pos_of_ne_zero hn)
    omega
  · rfl
  · rfl
  · rfl

/-- The integer that the digits write with zeros behind them, up to the scale. -/
def Literal.unscaled (l : Literal) (scale : Nat) : Int :=
  if l.negative then -(l.number * 10 ^ (scale - l.places.length) : Nat)
  else (l.number * 10 ^ (scale - l.places.length) : Nat)

theorem Literal.natAbs_unscaled (l : Literal) (scale : Nat) :
    (l.unscaled scale).natAbs = l.number * 10 ^ (scale - l.places.length) := by
  unfold Literal.unscaled
  split <;> omega

/-- It is the value at the scale, if there are not more digits behind the point than the scale. -/
theorem Literal.cast_unscaled {scale : Nat} (hplaces : l.places.length ≤ scale) :
    (l.unscaled scale : ℚ) = l.value * 10 ^ scale := by
  have hmagnitude : ((l.number * 10 ^ (scale - l.places.length) : Nat) : ℚ) =
      l.number / 10 ^ l.places.length * 10 ^ scale := by
    conv_rhs => rw [← Nat.sub_add_cancel hplaces, pow_add]
    push_cast
    field_simp
  unfold Literal.unscaled Literal.value
  split
  · rw [Int.cast_neg, Int.cast_natCast, hmagnitude, neg_mul]
  · rw [Int.cast_natCast, hmagnitude]

/-- **When a literal has an unscaled integer, and which one.** -/
theorem unscaled_ok_iff (hp : 1 ≤ d.precision) : d.unscaled text = .ok u ↔
    ∃ l, literal? text = some l ∧ l.number < 10 ^ d.precision ∧ l.places.length ≤ d.scale.getD 0 ∧
      (l.unscaled (d.scale.getD 0)).natAbs ≤ magnitudeLimit ∧ l.unscaled (d.scale.getD 0) = u := by
  unfold Decimal.unscaled
  cases hl : literal? text with
  | none => simp
  | some l =>
    have hdigits := isDigit_of_literal? hl
    have hnumber : Text.ofDigits 10 l.digits = l.number := ofDigits_eq_number hdigits
    simp only [Option.some.injEq, exists_eq_left', ← significant_le_iff hdigits hp, hnumber, shifted?_eq,
      l.natAbs_unscaled]
    by_cases hcount : d.precision < l.significant
    · rw [if_pos hcount]
      simp [Nat.not_le_of_lt hcount]
    · rw [if_neg hcount]
      by_cases hplaces : d.scale.getD 0 < l.places.length
      · rw [if_pos hplaces]
        simp [Nat.not_le_of_lt hplaces]
      · rw [if_neg hplaces]
        by_cases hlimit : l.number * 10 ^ (d.scale.getD 0 - l.places.length) ≤ magnitudeLimit
        · rw [if_pos hlimit]
          simp only [Nat.le_of_not_lt hcount, Nat.le_of_not_lt hplaces, hlimit, true_and, Except.ok.injEq]
          exact Iff.rfl
        · rw [if_neg hlimit]
          simp [hlimit]

end Avro.Decimal
