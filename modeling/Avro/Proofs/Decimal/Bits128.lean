import Avro.Proofs.Decimal.Literal

/-!
# Unscaled integers in 128 bits

The unscaled integer of a literal can be computed with integers of 128 bits, as `unscaled128` does: it reads the digits one
after the other, with a test for overflow at each step, and changes the sign in the end. This gives the same answer for
every literal and every type (`unscaled_eq_toInt`), so neither a step of the reading nor the change of the sign ever goes
wrong, however long the text and however great the scale is.
-/

namespace Avro.Decimal

/-- One more digit behind a number. There is none if the product with ten or the sum with the digit overflows. -/
def pushDigit? (n : BitVec 128) (c : Char) : Option (BitVec 128) :=
  let digit := BitVec.ofNat 128 (c.toNat - '0'.toNat)
  if n.smulOverflow 10 then none
  else if (n * 10).saddOverflow digit then none
  else some (n * 10 + digit)

/-- The number that digits write, the highest first. -/
def read128? (cs : List Char) : Option (BitVec 128) := cs.foldlM pushDigit? 0

/-- The unscaled integer of a literal, in 128 bits. -/
def unscaled128 (d : Decimal) (text : List Char) : Except LiteralFault (BitVec 128) :=
  match literal? text with
  | none => .error .malformed
  | some l =>
    let scale := d.scale.getD 0
    if d.precision < l.significant then .error (.digits l.significant d.precision)
    else if scale < l.places.length then .error (.places l.places.length scale)
    else
      let padded := l.digits ++ List.replicate (scale - l.places.length) '0'
      match read128? (padded.dropWhile (· == '0')) with
      | none => .error .tooLarge
      | some n => .ok (if l.negative then -n else n)

variable {cs : List Char} {c : Char} {n : Nat}

/-- A number within the limit is not negative. -/
theorem toInt_ofNat (hn : n ≤ magnitudeLimit) : (BitVec.ofNat 128 n).toInt = n := by
  have hlimit : magnitudeLimit = 2 ^ 127 - 1 := rfl
  rw [BitVec.toInt_eq_toNat_bmod, BitVec.toNat_ofNat, Int.bmod_def]
  omega

/-- One step of the reading goes as far as the limit. -/
theorem pushDigit?_ofNat (hn : n ≤ magnitudeLimit) (hc : c.isDigit = true) :
    pushDigit? (BitVec.ofNat 128 n) c =
      if 10 * n + (c.toNat - '0'.toNat) ≤ magnitudeLimit then
        some (BitVec.ofNat 128 (10 * n + (c.toNat - '0'.toNat)))
      else none := by
  have hlimit : magnitudeLimit = 2 ^ 127 - 1 := rfl
  have hdigit := (digitValue?_of_isDigit hc).2
  generalize hd : c.toNat - '0'.toNat = digit at hdigit
  have hten : (10 : BitVec 128).toInt = 10 := by decide
  have hmul : (BitVec.ofNat 128 n).smulOverflow 10 = true ↔ 2 ^ 127 ≤ n * 10 := by
    unfold BitVec.smulOverflow
    rw [toInt_ofNat hn, hten, Bool.or_eq_true, decide_eq_true_eq, decide_eq_true_eq]
    omega
  unfold pushDigit?
  rw [hd]
  by_cases hover : 2 ^ 127 ≤ n * 10
  · rw [if_pos (hmul.mpr hover), if_neg (by omega)]
  · have hproduct : (BitVec.ofNat 128 n * 10).toInt = n * 10 := by
      rw [BitVec.toInt_mul_of_not_smulOverflow (hmul.not.mpr hover), toInt_ofNat hn, hten]
    have hadd : (BitVec.ofNat 128 n * 10).saddOverflow (BitVec.ofNat 128 digit) = true ↔ 2 ^ 127 ≤ n * 10 + digit := by
      unfold BitVec.saddOverflow
      rw [hproduct, toInt_ofNat (by omega), Bool.or_eq_true, decide_eq_true_eq, decide_eq_true_eq]
      omega
    rw [if_neg (hmul.not.mpr hover)]
    by_cases hsum : 2 ^ 127 ≤ n * 10 + digit
    · rw [if_pos (hadd.mpr hsum), if_neg (by omega)]
    · rw [if_neg (hadd.not.mpr hsum), if_pos (by omega), BitVec.ofNat_add, BitVec.ofNat_mul, BitVec.mul_comm]
      rfl

/-- **The digits of a number are read if the number is within the limit**, without any step that overflows before. -/
theorem read128?_eq (hcs : ∀ c ∈ cs, c.isDigit = true) :
    read128? cs = if number cs ≤ magnitudeLimit then some (BitVec.ofNat 128 (number cs)) else none := by
  induction cs using List.reverseRecOn with
  | nil => rfl
  | append_singleton cs c ih =>
    obtain ⟨hcs, hc⟩ := List.forall_mem_append.mp hcs
    have hstep : number (cs ++ [c]) = 10 * number cs + (c.toNat - '0'.toNat) := by
      rw [number_append]
      simp [number, Nat.ofDigitChars_cons]
    have hread : read128? (cs ++ [c]) = (read128? cs).bind fun n => pushDigit? n c := by
      unfold read128?
      rw [List.foldlM_append]
      simp only [List.foldlM_cons, List.foldlM_nil, bind_pure]
      rfl
    rw [hread, ih hcs, hstep]
    by_cases hle : number cs ≤ magnitudeLimit
    · rw [if_pos hle, Option.bind_some, pushDigit?_ofNat hle (hc c List.mem_cons_self)]
    · rw [if_neg hle, if_neg (by omega)]
      rfl

/-- **With 128 bits, each literal has the same unscaled integer for each type, or the same fault.** -/
theorem unscaled_eq_toInt (d : Decimal) (text : List Char) :
    d.unscaled text = (d.unscaled128 text).map BitVec.toInt := by
  unfold unscaled unscaled128
  cases hl : literal? text with
  | none => rfl
  | some l =>
    have hdigits := isDigit_of_literal? hl
    simp only
    by_cases hcount : d.precision < l.significant
    · rw [if_pos hcount, if_pos hcount]
      rfl
    rw [if_neg hcount, if_neg hcount]
    by_cases hplaces : d.scale.getD 0 < l.places.length
    · rw [if_pos hplaces, if_pos hplaces]
      rfl
    rw [if_neg hplaces, if_neg hplaces]
    generalize d.scale.getD 0 - l.places.length = zeros
    have hpadded : ∀ c ∈ (l.digits ++ List.replicate zeros '0').dropWhile (· == '0'), c.isDigit = true := by
      intro c hc
      rcases List.mem_append.mp ((List.dropWhile_suffix _).subset hc) with hc | hc
      · exact hdigits c hc
      · rw [List.eq_of_mem_replicate hc]
        rfl
    rw [ofDigits_eq_number hdigits, shifted?_eq, read128?_eq hpadded, number_dropWhile, number_append_zeros]
    by_cases hle : number l.digits * 10 ^ zeros ≤ magnitudeLimit
    · have hpos := toInt_ofNat hle
      have hneg : ¬(BitVec.ofNat 128 (number l.digits * 10 ^ zeros)).negOverflow = true := by
        unfold BitVec.negOverflow
        rw [hpos, beq_iff_eq]
        omega
      rw [if_pos hle, if_pos hle]
      cases l.negative with
      | true => exact congrArg Except.ok (by rw [if_pos rfl, if_pos rfl, BitVec.toInt_neg_of_not_negOverflow hneg, hpos])
      | false => exact congrArg Except.ok hpos.symm
    · rw [if_neg hle, if_neg hle]
      rfl

end Avro.Decimal
