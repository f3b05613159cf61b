import Avro.Json.Printer
import Avro.Proofs.Json.Reader
import Mathlib

/-!
# Strings in JSON texts

A character is written as itself, as a letter behind a backslash, or by its number (`EscapedAs`). In each case it reads
back as itself, so a string reads back as itself (`readString_escaped`), and none of its characters ends the string early:
a reader that removes the spaces outside of strings leaves it as it is (`strip_writeString`).
-/

namespace Avro.Json

/-- How a string may show a character. -/
inductive EscapedAs (c : Char) : List Char → Prop
  | plain : 0x20 ≤ c.toNat → c ≠ '"' → c ≠ '\\' → EscapedAs c [c]
  | letter {e : Char} : unescaped? e = some c → EscapedAs c ['\\', e]
  | number {u v w x : Char} : c.toNat < 0x20 → codeUnit? u v w x = some c.toNat → EscapedAs c ['\\', 'u', u, v, w, x]

/-- The number of a character below the space, in four digits. -/
theorem codeUnit?_hexDigit : ∀ n < 0x20, codeUnit? '0' '0' (hexDigit (n / 16)) (hexDigit (n % 16)) = some n := by decide

theorem escapedAs_escaped (c : Char) : EscapedAs c (escaped c) := by
  unfold escaped
  split_ifs with hquote hback hb hf hn hr ht hlow
  case pos => subst hquote; exact .letter rfl
  case pos => subst hback; exact .letter rfl
  case pos => subst hb; exact .letter rfl
  case pos => subst hf; exact .letter rfl
  case pos => subst hn; exact .letter rfl
  case pos => subst hr; exact .letter rfl
  case pos => subst ht; exact .letter rfl
  case pos => exact .number hlow (codeUnit?_hexDigit c.toNat hlow)
  case neg => exact .plain (Nat.le_of_not_lt hlow) hquote hback

/-! ## Reading -/

/-- The letter for the escape by a number is none of the other letters. -/
theorem unescaped?_ne_u {c e : Char} (h : unescaped? e = some c) : e ≠ 'u' := by
  rintro rfl
  cases h

theorem readString_escapedAs {c : Char} {cs : List Char} (h : EscapedAs c cs) (rest : List Char) :
    readString none (cs ++ rest) = prepend c (readString none rest) := by
  cases h with
  | plain hlow hquote hback =>
    show readString none (c :: rest) = _
    rw [readString]
    · exact if_pos (by simp [hlow, hback])
    · exact hquote
    · intro _ _ _ _ _ h _
      exact hback h
    · intro _ _ h _
      exact hback h
  | @letter e he =>
    show readString none ('\\' :: e :: rest) = _
    rw [readString, he]
    · rfl
    · intro _ _ _ _ _ hu _
      exact unescaped?_ne_u he hu
  | @number u v w x hlow hnumber =>
    show readString none ('\\' :: 'u' :: u :: v :: w :: x :: rest) = _
    have hhigh : isHighHalf c.toNat = false := by simp [isHighHalf]; omega
    have hrest : isLowHalf c.toNat = false := by simp [isLowHalf]; omega
    rw [readString, hnumber]
    simp only [Option.bind_some, hhigh, hrest, joined?, Bool.or_self, Bool.false_and, Bool.false_eq_true, if_false,
      Char.ofNat_toNat]

/-- **A string reads back as itself**, whatever its characters are. -/
theorem readString_escaped (s rest : List Char) : readString none (s.flatMap escaped ++ '"' :: rest) = some (s, rest) := by
  induction s with
  | nil => rfl
  | cons c s ih =>
    rw [List.flatMap_cons, List.append_assoc, readString_escapedAs (escapedAs_escaped c), ih]
    rfl

/-! ## Spaces outside of strings -/

mutual

/-- The text without the spaces outside of strings. -/
def strip : List Char → List Char
  | [] => []
  | '"' :: r => '"' :: stripString r
  | c :: r => if isSpace c then strip r else c :: strip r

/-- The text without the spaces outside of strings, where a string has begun. -/
def stripString : List Char → List Char
  | [] => []
  | '"' :: r => '"' :: strip r
  | '\\' :: c :: r => '\\' :: c :: stripString r
  | c :: r => c :: stripString r

end

theorem strip_space {c : Char} (hc : isSpace c = true) (r : List Char) : strip (c :: r) = strip r := by
  rw [strip]
  · exact if_pos hc
  · rintro rfl
    cases hc

theorem strip_other {c : Char} (hc : isSpace c = false) (hquote : c ≠ '"') (r : List Char) :
    strip (c :: r) = c :: strip r := by
  rw [strip]
  · exact if_neg (by simp [hc])
  · exact hquote

theorem stripString_other {c : Char} (hquote : c ≠ '"') (hback : c ≠ '\\') (r : List Char) :
    stripString (c :: r) = c :: stripString r := by
  rw [stripString]
  · exact hquote
  · intro _ _ h _
    exact hback h

/-- A hexadecimal digit ends no string and is no backslash. -/
theorem ne_of_digitValue {c : Char} {n : Nat} (h : Text.digitValue? c = some n) : c ≠ '"' ∧ c ≠ '\\' := by
  constructor <;> rintro rfl <;> cases h

theorem stripString_escapedAs {c : Char} {cs : List Char} (h : EscapedAs c cs) (rest : List Char) :
    stripString (cs ++ rest) = cs ++ stripString rest := by
  cases h with
  | plain _ hquote hback => exact stripString_other hquote hback rest
  | letter => rfl
  | @number u v w x _ hnumber =>
    simp only [codeUnit?, Option.bind_eq_bind, Option.bind_eq_some_iff] at hnumber
    obtain ⟨_, hu, _, hv, _, hw, _, hx, -⟩ := hnumber
    show stripString ('\\' :: 'u' :: u :: v :: w :: x :: rest) = _
    rw [stripString, stripString_other (ne_of_digitValue hu).1 (ne_of_digitValue hu).2,
      stripString_other (ne_of_digitValue hv).1 (ne_of_digitValue hv).2,
      stripString_other (ne_of_digitValue hw).1 (ne_of_digitValue hw).2,
      stripString_other (ne_of_digitValue hx).1 (ne_of_digitValue hx).2]
    rfl

/-- A string keeps its spaces. -/
theorem strip_writeString (s : String) (rest : List Char) :
    strip (writeString s ++ rest) = writeString s ++ strip rest := by
  have hbody : ∀ cs : List Char,
      stripString (cs.flatMap escaped ++ '"' :: rest) = cs.flatMap escaped ++ '"' :: strip rest := by
    intro cs
    induction cs with
    | nil => rfl
    | cons c cs ih =>
      rw [List.flatMap_cons, List.append_assoc, stripString_escapedAs (escapedAs_escaped c), ih, List.append_assoc]
  show strip ('"' :: (s.toList.flatMap escaped ++ ['"'] ++ rest)) = '"' :: (s.toList.flatMap escaped ++ ['"'] ++ strip rest)
  rw [strip, List.append_assoc, List.append_assoc]
  exact congrArg _ (hbody s.toList)

end Avro.Json
