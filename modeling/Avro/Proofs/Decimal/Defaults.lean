import Avro.Proofs.Conformance.Basic
import Avro.Proofs.Decimal.Bits128
import Avro.Proofs.Decimal.TwosComplement

/-!
# Defaults of decimal types

A default that a decimal type accepts is stored as the bytes of an integer, which is exactly the value of its literal at
the scale, in as few bytes as can hold it (`encode_decimal_exact`). The precision is a bound for the digits of the literal,
not for those of the integer: where the literal has fewer places than the scale, the integer may have more digits than the
precision (`encode_decimal_digits`).
-/

namespace Avro

open Decimal

/-! ## Types -/

/-- The precision of a decimal type is one at least. -/
theorem Decimal.precision_pos {params : List Int} {t : Decimal} (h : Decimal.ofParams params = .ok t) :
    1 ≤ t.precision := by
  unfold Decimal.ofParams at h
  split at h
  · split at h <;> cases h
    show 1 ≤ Int.toNat _
    omega
  · split at h
    · cases h
    · split at h
      · cases h
      · split at h <;> cases h
        show 1 ≤ Int.toNat _
        omega
  · cases h

variable {cx : Setting} {encode : TypeId → Value → Encode Json} {d : Descriptor} {t : Decimal} {v : Value} {j : Json}

theorem precision_pos_of_decimalType (ht : Rule.decimalType d = .ok t) : 1 ≤ t.precision := by
  unfold Rule.decimalType at ht
  split at ht
  · split at ht <;> cases ht
    exact Decimal.precision_pos ‹_›
  · cases ht

/-! ## Encodings -/

/-- The integer that is stored, and the literal that it comes from. -/
theorem encode_decimal_ok_iff (ht : Rule.decimalType d = .ok t) :
    (Rule.decimal.encode cx encode d v).outcome = some (.ok j) ↔
      ∃ text u, Rule.literal? v = some text ∧ t.unscaled text.toList = .ok u ∧ j = bytesToJson (bytes u) := by
  simp only [Rule.decimal, ht, Encode.outcome_ofExcept, Option.some.injEq, Rule.encodeDecimal]
  cases Rule.literal? v with
  | none => simp [Rule.mustBe]
  | some text =>
    simp only [Option.some.injEq, exists_and_left, exists_eq_left']
    cases t.unscaled text.toList with
    | ok u => simp [eq_comm]
    | error f => simp [Rule.mismatch]

/-- The integer of a string that stands for bytes. -/
def Json.signed? (j : Json) : Option Int := j.bytes?.bind Decimal.signed?

theorem signed?_bytesToJson (u : Int) : (bytesToJson (bytes u)).signed? = some u := by
  unfold Json.signed?
  rw [Json.bytes?_eq_some_iff.mpr rfl, Option.bind_some, signed?_bytes]

/-- Digits with zeros behind them are below a power of ten if and only if there are not too many that count. -/
theorem Decimal.Literal.mul_pow_lt_iff {l : Literal} (hl : ∀ c ∈ l.digits, c.isDigit = true) {p : Nat} (zeros : Nat) :
    l.number * 10 ^ zeros < 10 ^ p ↔ l.number = 0 ∨ l.significant + zeros ≤ p := by
  have hpow : ∀ n, 0 < 10 ^ n := fun n => Nat.pow_pos (by decide)
  by_cases hzero : l.number = 0
  · simp [hzero]
  have hcount : 1 ≤ (l.digits.dropWhile (· == '0')).length := by
    have hnone := (length_dropWhile_le_iff hl 0).not.mpr
    have hnumber : ¬ Decimal.number l.digits < 10 ^ 0 := by
      show ¬ l.number < 1
      omega
    have hle := hnone hnumber
    omega
  have hsignificant : l.significant = (l.digits.dropWhile (· == '0')).length := max_eq_right hcount
  rw [or_iff_right hzero, hsignificant]
  by_cases hzeros : zeros ≤ p
  · have hsplit : 10 ^ p = 10 ^ (p - zeros) * 10 ^ zeros := by rw [← pow_add, Nat.sub_add_cancel hzeros]
    have hle := length_dropWhile_le_iff hl (p - zeros)
    rw [hsplit, Nat.mul_lt_mul_right (hpow zeros)]
    show Decimal.number l.digits < _ ↔ _
    omega
  · have hge : 10 ^ p ≤ l.number * 10 ^ zeros :=
      le_trans (Nat.pow_le_pow_right (by decide) (by omega)) (Nat.le_mul_of_pos_left _ (by omega))
    omega

/-- **How many digits a default of a decimal type has.** The precision bounds the digits of the literal. The integer that
is stored has zeros behind them, one for each place that the literal leaves open. So it has no more digits than the
precision if and only if those of the literal and these zeros together are not more, or it is zero. -/
theorem encode_decimal_digits (ht : Rule.decimalType d = .ok t)
    (h : (Rule.decimal.encode cx encode d v).outcome = some (.ok j)) :
    ∃ text l u, Rule.literal? v = some text ∧ literal? text.toList = some l ∧ j.signed? = some u ∧
      l.number < 10 ^ t.precision ∧ l.places.length ≤ t.scale.getD 0 ∧
      u.natAbs = l.number * 10 ^ (t.scale.getD 0 - l.places.length) ∧
      (u.natAbs < 10 ^ t.precision ↔
        u = 0 ∨ l.significant + (t.scale.getD 0 - l.places.length) ≤ t.precision) := by
  obtain ⟨text, u, htext, hu, rfl⟩ := (encode_decimal_ok_iff ht).mp h
  obtain ⟨l, hl, hnumber, hplaces, -, rfl⟩ := (unscaled_ok_iff (precision_pos_of_decimalType ht)).mp hu
  have hdigits := isDigit_of_literal? hl
  have hzero : l.unscaled (t.scale.getD 0) = 0 ↔ l.number = 0 := by
    rw [← Int.natAbs_eq_zero, l.natAbs_unscaled, Nat.mul_eq_zero]
    exact or_iff_left (Nat.pow_pos (by decide)).ne'
  refine ⟨text, l, _, htext, hl, signed?_bytesToJson _, hnumber, hplaces, l.natAbs_unscaled _, ?_⟩
  rw [hzero, l.natAbs_unscaled]
  exact l.mul_pow_lt_iff hdigits _

/-- Numbers of four digits, two of them behind the point. -/
def price : Descriptor := { name := "Decimal", shape := .decimal [4, 2] }

def prices : Setting := .of ⟨#[some price]⟩ {} none

/-- The encoding of a default of a price. -/
def encodePrice (v : Value) : Option (Except Mismatch Json) :=
  (Rule.decimal.encode prices (RuleTable.standard.encode prices) price v).outcome

theorem encode_price_digits :
    encodePrice (.decimal "12.5") = some (.ok (bytesToJson [0x04, 0xE2])) ∧
    ∃ text l u, Rule.literal? (.decimal "12.5") = some text ∧ literal? text.toList = some l ∧
      (bytesToJson [0x04, 0xE2]).signed? = some u ∧ l.number < 10 ^ 4 ∧ l.places.length ≤ 2 ∧
      u.natAbs = l.number * 10 ^ (2 - l.places.length) ∧
      (u.natAbs < 10 ^ 4 ↔ u = 0 ∨ l.significant + (2 - l.places.length) ≤ 4) := by
  have hbytes : bytes 1250 = [0x04, 0xE2] := by decide +kernel
  have hencode : encodePrice (.decimal "12.5") = some (.ok (bytesToJson [0x04, 0xE2])) :=
    (encode_decimal_ok_iff rfl).mpr ⟨"12.5", 1250, rfl, by decide, by rw [hbytes]⟩
  exact ⟨hencode, encode_decimal_digits (t := ⟨4, some 2⟩) rfl hencode⟩

/-- A default of four digits is accepted whose integer has five: its literal has one place less than the scale. -/
theorem encode_price_tooManyDigits :
    Rule.decimalType price = .ok ⟨4, some 2⟩ ∧
    encodePrice (.decimal "123.4") = some (.ok (bytesToJson [0x30, 0x34])) ∧
    (bytesToJson [0x30, 0x34]).signed? = some 12340 ∧ ¬ (12340 : Int).natAbs < 10 ^ 4 := by
  have hbytes : bytes 12340 = [0x30, 0x34] := by decide +kernel
  rw [← hbytes]
  exact ⟨rfl, (encode_decimal_ok_iff rfl).mpr ⟨"123.4", 12340, rfl, by decide, rfl⟩, signed?_bytesToJson _, by decide⟩

/-! ## Integers as literals -/

theorem trim_of_not_blank {cs : List Char} (h : ∀ c ∈ cs, Text.isBlank c = false) : Text.trim cs = cs := by
  have hleft : ∀ {cs : List Char}, (∀ c ∈ cs, Text.isBlank c = false) → Text.trimLeft cs = cs := by
    intro cs h
    cases cs with
    | nil => rfl
    | cons c cs =>
      unfold Text.trimLeft
      rw [List.dropWhile_cons, h c List.mem_cons_self]
      rfl
  unfold Text.trim Text.trimRight
  rw [hleft h, hleft (fun c hc => h c (List.mem_reverse.mp hc)), List.reverse_reverse]

theorem not_blank_of_isDigit {c : Char} (hc : c.isDigit = true) : Text.isBlank c = false := by
  have hbounds := isDigit_iff.mp hc
  simp only [Text.isBlank, Bool.or_eq_false_iff, Bool.and_eq_false_imp, decide_eq_true_eq, decide_eq_false_iff_not,
    beq_eq_false_iff_ne]
  omega

/-- The text of a number without a sign denotes it. -/
theorem magnitude_repr (n : Nat) : Magnitude (Nat.toDigits 10 n) n := by
  have hmagnitude := Magnitude.whole (Nat.toDigits_ne_nil (b := 10) (n := n))
    fun c hc => Nat.isDigit_of_mem_toDigits (by decide) (by decide) hc
  rwa [number, Nat.ofDigitChars_ten_toDigits] at hmagnitude

/-- The text of an integer denotes it. -/
theorem denotes_toString (i : Int) : Denotes (Text.trim (toString i).toList) i := by
  have hblank : ∀ n : Nat, ∀ c ∈ Nat.toDigits 10 n, Text.isBlank c = false :=
    fun n c hc => not_blank_of_isDigit (Nat.isDigit_of_mem_toDigits (by decide) (by decide) hc)
  cases i with
  | ofNat n =>
    have htext : (toString (Int.ofNat n)).toList = Nat.toDigits 10 n := String.toList_ofList
    rw [htext, trim_of_not_blank (hblank n)]
    exact .unsigned (magnitude_repr n)
  | negSucc n =>
    have htext : (toString (Int.negSucc n)).toList = '-' :: Nat.toDigits 10 (n + 1) := by
      show ("-" ++ Nat.repr (n + 1)).toList = _
      rw [String.toList_append, Nat.repr_eq_ofList_toDigits]
      show '-' :: (String.ofList _).toList = _
      rw [String.toList_ofList]
    rw [htext, trim_of_not_blank (List.forall_mem_cons.mpr ⟨rfl, hblank (n + 1)⟩)]
    have hminus := Denotes.minus (magnitude_repr (n + 1))
    rwa [Int.cast_negSucc]

/-! ## Exact encodings -/

/-- An integer within the limit needs sixteen bytes at most. -/
theorem length_bytes_of_limit {u : Int} (hu : u.natAbs ≤ magnitudeLimit) : (bytes u).length ≤ 16 := by
  have hlimit : magnitudeLimit = 2 ^ 127 - 1 := rfl
  refine length_bytes_le_iff.mpr ?_
  omega

/-- **Defaults of decimal types are encoded exactly and in as few bytes as possible.** A text that is accepted is a literal,
with blanks around it, and stands for bytes: they are the two's complement of its value at the scale, no fewer bytes
are, and they are not more than sixteen. An integer is encoded as its decimal text, which denotes it. The unscaled integer
is the same in 128 bits, for each text, accepted or not. -/
theorem encode_decimal_exact (ht : Rule.decimalType d = .ok t) :
    (∀ text j, (Rule.decimal.encode cx encode d (.decimal text)).outcome = some (.ok j) →
      ∃ q bs u, Denotes (Text.trim text.toList) q ∧ j.bytes? = some bs ∧ Decimal.signed? bs = some u ∧
        (u : ℚ) = q * 10 ^ t.scale.getD 0 ∧ bs ≠ [] ∧ bs.length ≤ 16 ∧
        ∀ bs', Decimal.signed? bs' = some u → bs.length ≤ bs'.length) ∧
    (∀ i : Int64,
      Rule.decimal.encode cx encode d (.int i) = Rule.decimal.encode cx encode d (.decimal (toString i.toInt)) ∧
      Denotes (Text.trim (toString i.toInt).toList) i.toInt) ∧
    ∀ text, t.unscaled text = (t.unscaled128 text).map BitVec.toInt := by
  refine ⟨fun text j h => ?_, fun i => ⟨rfl, denotes_toString i.toInt⟩, unscaled_eq_toInt t⟩
  obtain ⟨text', u, htext, hu, rfl⟩ := (encode_decimal_ok_iff ht).mp h
  cases htext
  obtain ⟨l, hl, -, hplaces, hlimit, rfl⟩ := (unscaled_ok_iff (precision_pos_of_decimalType ht)).mp hu
  have hvalue : Denotes (Text.trim text.toList) l.value := denotes_iff.mpr ⟨l, hl, rfl⟩
  exact ⟨l.value, bytes _, _, hvalue, Json.bytes?_eq_some_iff.mpr rfl, signed?_bytes _, Literal.cast_unscaled hplaces,
    bytes_ne_nil _, length_bytes_of_limit hlimit, fun bs' h => length_bytes_le h⟩

theorem encode_price_exact :
    Rule.decimalType price = .ok ⟨4, some 2⟩ ∧
    encodePrice (.decimal " -.05") = some (.ok (bytesToJson [0xFB])) ∧
    (∃ q bs u, Denotes (Text.trim " -.05".toList) q ∧ (bytesToJson [0xFB]).bytes? = some bs ∧ Decimal.signed? bs = some u ∧
      (u : ℚ) = q * 10 ^ 2 ∧ bs ≠ [] ∧ bs.length ≤ 16 ∧ ∀ bs', Decimal.signed? bs' = some u → bs.length ≤ bs'.length) ∧
    encodePrice (.int 12) = encodePrice (.decimal "12") ∧
    (⟨4, some 2⟩ : Decimal).unscaled " -.05".toList =
      ((⟨4, some 2⟩ : Decimal).unscaled128 " -.05".toList).map BitVec.toInt := by
  have hbytes : bytes (-5) = [0xFB] := by decide +kernel
  have hencode : encodePrice (.decimal " -.05") = some (.ok (bytesToJson [0xFB])) :=
    (encode_decimal_ok_iff rfl).mpr ⟨" -.05", -5, rfl, by decide, by rw [hbytes]⟩
  obtain ⟨hexact, hint, hwide⟩ :=
    @encode_decimal_exact prices (RuleTable.standard.encode prices) price ⟨4, some 2⟩ rfl
  have htext : toString (12 : Int64).toInt = "12" := by decide
  refine ⟨rfl, hencode, hexact _ _ hencode, ?_, hwide _⟩
  unfold encodePrice
  rw [(hint 12).1, htext]

end Avro
