import Avro.Json.Printer
import Avro.Proofs.Json.Reader
import Mathlib

/-!
# Numbers in JSON texts

What is written for integers and for floating-point numbers is a number for a reader: a whole part without a needless
zero in front, and behind it perhaps a point with digits and a power of ten (`isNumber_writeInt`, `isNumber_text`). All
its characters belong to one word (`isWordChar_of_isNumber`).
-/

namespace Avro

open Json

/-! ## Digits -/

namespace Json

theorem isDigits_iff {cs : List Char} : isDigits cs = true ↔ cs ≠ [] ∧ ∀ c ∈ cs, c.isDigit = true := by
  simp [isDigits]

theorem isDigits_toDigits (n : Nat) : isDigits (Nat.toDigits 10 n) = true :=
  isDigits_iff.mpr ⟨Nat.toDigits_ne_nil, fun _ hc => Nat.isDigit_of_mem_toDigits (by decide) (by decide) hc⟩

/-- The first digit of a number is no zero, except for zero itself. -/
theorem head?_toDigits {n : Nat} (hn : n ≠ 0) : (Nat.toDigits 10 n).head? ≠ some '0' := by
  induction n using Nat.strong_induction_on with
  | _ n ih =>
    rw [Nat.toDigits_eq_if (by decide)]
    split
    · rename_i hlt
      have hdigit : ∀ d < 10, d ≠ 0 → d.digitChar ≠ '0' := by decide
      simpa using hdigit n hlt hn
    · rename_i hge
      have hquot : n / 10 ≠ 0 := by omega
      have hhead := ih (n / 10) (by omega) hquot
      rwa [List.head?_append_of_ne_nil _ Nat.toDigits_ne_nil]

theorem isWhole_of_head? {cs : List Char} (hcs : isDigits cs = true) (hhead : cs.head? ≠ some '0') :
    isWhole cs = true := by
  simp [isWhole, hcs, hhead]

theorem isWhole_toDigits (n : Nat) : isWhole (Nat.toDigits 10 n) = true := by
  by_cases hn : n = 0
  · subst hn
    rw [Nat.toDigits_zero]
    rfl
  · exact isWhole_of_head? (isDigits_toDigits n) (head?_toDigits hn)

/-! ## Numbers from their parts -/

variable {w f p e cs : List Char}

theorem isDigits_of_isWhole (hw : isWhole w = true) : isDigits w = true := by
  simp only [isWhole, Bool.and_eq_true] at hw
  exact hw.1

/-- Behind digits, where no digit follows, is where digits end. -/
theorem span_digits (hw : isDigits w = true) (hf : ∀ c ∈ f.head?, c.isDigit = false) :
    (w ++ f).takeWhile Char.isDigit = w ∧ (w ++ f).dropWhile Char.isDigit = f := by
  have hdigits := (isDigits_iff.mp hw).2
  have hstop : f.takeWhile Char.isDigit = [] ∧ f.dropWhile Char.isDigit = f := by
    cases f with
    | nil => exact ⟨rfl, rfl⟩
    | cons c f => simp [hf c rfl]
  rw [List.takeWhile_append_of_pos hdigits, List.dropWhile_append_of_pos hdigits, hstop.1, hstop.2, List.append_nil]
  exact ⟨rfl, rfl⟩

/-- A power of ten begins with a letter. -/
theorem head?_of_isExponent (he : isExponent e = true) : ∀ c ∈ e.head?, c.isDigit = false := by
  cases e with
  | nil => simp
  | cons c e =>
    simp only [isExponent, Bool.and_eq_true, Bool.or_eq_true, beq_iff_eq] at he
    rcases he.1 with rfl | rfl <;> simp

/-- What follows the whole part begins with no digit. -/
theorem head?_of_isFraction (hf : isFraction f = true) : ∀ c ∈ f.head?, c.isDigit = false := by
  unfold isFraction at hf
  split at hf
  · simp
  · exact head?_of_isExponent hf

theorem isFraction_point (hp : isDigits p = true) (he : isExponent e = true) : isFraction ('.' :: (p ++ e)) = true := by
  obtain ⟨htake, hdrop⟩ := span_digits hp (head?_of_isExponent he)
  simp [isFraction, htake, hdrop, hp, he]

/-- A whole part with a fraction and a power of ten is a number, with a minus in front too. -/
theorem isNumber_append (hw : isWhole w = true) (hf : isFraction f = true) :
    isNumber (w ++ f) = true ∧ isNumber ('-' :: (w ++ f)) = true := by
  have hdigits := isDigits_of_isWhole hw
  obtain ⟨htake, hdrop⟩ := span_digits hdigits (head?_of_isFraction hf)
  have hneg : isNumber ('-' :: (w ++ f)) = true := by simp [isNumber, htake, hdrop, hw, hf]
  refine ⟨?_, hneg⟩
  unfold isNumber
  split
  · rename_i r hr
    obtain ⟨hne, hall⟩ := isDigits_iff.mp hdigits
    obtain ⟨c, w, rfl⟩ := List.exists_cons_of_ne_nil hne
    cases hr
    exact absurd (hall '-' List.mem_cons_self) (by decide)
  · simp [htake, hdrop, hw, hf]

/-! ## Characters of numbers -/

/-- Whether the character may be part of a number. -/
def isNumberChar (c : Char) : Bool := c.isDigit || ['-', '+', '.', 'e', 'E'].contains c

theorem isNumberChar_of_isDigit {c : Char} (hc : c.isDigit = true) : isNumberChar c = true := by
  simp [isNumberChar, hc]

theorem isNumberChar_of_isDigits (hcs : isDigits cs = true) : ∀ c ∈ cs, isNumberChar c = true :=
  fun c hc => isNumberChar_of_isDigit ((isDigits_iff.mp hcs).2 c hc)

theorem isNumberChar_of_isExponent (he : isExponent e = true) : ∀ c ∈ e, isNumberChar c = true := by
  unfold isExponent at he
  split at he
  · simp
  · rename_i c r
    simp only [Bool.and_eq_true, Bool.or_eq_true, beq_iff_eq] at he
    obtain ⟨hc, hr⟩ := he
    have hletter : isNumberChar c = true := by rcases hc with rfl | rfl <;> decide
    have hpower : ∀ a ∈ r, isNumberChar a = true := by
      split at hr
      · exact List.forall_mem_cons.mpr ⟨by decide, isNumberChar_of_isDigits hr⟩
      · exact List.forall_mem_cons.mpr ⟨by decide, isNumberChar_of_isDigits hr⟩
      · exact isNumberChar_of_isDigits hr
    exact List.forall_mem_cons.mpr ⟨hletter, hpower⟩

theorem isNumberChar_of_isFraction (hf : isFraction f = true) : ∀ c ∈ f, isNumberChar c = true := by
  unfold isFraction at hf
  split at hf
  · rename_i r
    simp only [Bool.and_eq_true] at hf
    rw [← List.takeWhile_append_dropWhile (p := Char.isDigit) (l := r)]
    refine List.forall_mem_cons.mpr ⟨by decide, List.forall_mem_append.mpr ⟨?_, ?_⟩⟩
    · exact isNumberChar_of_isDigits hf.1
    · exact isNumberChar_of_isExponent hf.2
  · exact isNumberChar_of_isExponent hf

/-- A number is made of digits, signs, points and the letter for a power of ten. -/
theorem isNumberChar_of_isNumber (h : isNumber cs = true) : cs ≠ [] ∧ ∀ c ∈ cs, isNumberChar c = true := by
  have hparts : ∀ r : List Char, isWhole (r.takeWhile Char.isDigit) = true →
      isFraction (r.dropWhile Char.isDigit) = true → r ≠ [] ∧ ∀ c ∈ r, isNumberChar c = true := by
    intro r hw hf
    have hne : r ≠ [] := by
      rintro rfl
      cases hw
    refine ⟨hne, ?_⟩
    rw [← List.takeWhile_append_dropWhile (p := Char.isDigit) (l := r)]
    refine List.forall_mem_append.mpr ⟨?_, isNumberChar_of_isFraction hf⟩
    exact isNumberChar_of_isDigits (isDigits_of_isWhole hw)
  unfold isNumber at h
  split at h
  · simp only [Bool.and_eq_true] at h
    exact ⟨List.cons_ne_nil _ _, List.forall_mem_cons.mpr ⟨by decide, (hparts _ h.1 h.2).2⟩⟩
  · simp only [Bool.and_eq_true] at h
    exact hparts _ h.1 h.2

/-- The characters of numbers have numbers below 128. -/
theorem toNat_of_isNumberChar {c : Char} (hc : isNumberChar c = true) : c.toNat ≤ 0x7F := by
  simp only [isNumberChar, Bool.or_eq_true, List.contains_eq_mem, decide_eq_true_eq, List.mem_cons, List.not_mem_nil,
    or_false] at hc
  rcases hc with hdigit | rfl | rfl | rfl | rfl | rfl
  · simp only [Char.isDigit, Bool.and_eq_true, decide_eq_true_eq, ge_iff_le] at hdigit
    exact le_trans hdigit.2 (by decide)
  all_goals decide

/-- The characters of a number belong to a word. -/
theorem isWordChar_of_isNumber (h : isNumber cs = true) : cs ≠ [] ∧ ∀ c ∈ cs, isWordChar c = true := by
  have hall : ∀ n ≤ 0x7F, isNumberChar (Char.ofNat n) = true → isWordChar (Char.ofNat n) = true := by decide
  obtain ⟨hne, hchars⟩ := isNumberChar_of_isNumber h
  refine ⟨hne, fun c hc => ?_⟩
  have hword := hall c.toNat (toNat_of_isNumberChar (hchars c hc))
  rw [Char.ofNat_toNat] at hword
  exact hword (hchars c hc)

/-- A number stands for itself. -/
theorem constant?_of_isNumber (h : isNumber cs = true) : constant? cs = some (.number cs) := by
  unfold constant?
  have hne : ∀ {ds : List Char}, isNumber ds = false → cs ≠ ds := by
    rintro ds hds rfl
    cases h.symm.trans hds
  rw [if_neg (hne (by decide)), if_neg (hne (by decide)), if_neg (hne (by decide)), if_pos h]

/-! ## Integers -/

theorem isNumber_writeInt (i : Int) : isNumber (writeInt i) = true := by
  have hnumber := isNumber_append (isWhole_toDigits i.natAbs) (f := []) rfl
  rw [List.append_nil] at hnumber
  unfold writeInt
  split
  · exact hnumber.2
  · exact hnumber.1

end Json

/-! ## Floating-point numbers -/

namespace Binary64

variable {x : Binary64}

theorem mantissa_pos (hx : x.isZero = false) : 0 < x.mantissa := by
  unfold mantissa
  split
  · rename_i hbiased
    simp only [isZero, hbiased, beq_self_eq_true, Bool.true_and, beq_eq_false_iff_ne] at hx
    exact Nat.pos_of_ne_zero hx
  · exact Nat.add_pos_left (by decide) _

/-- Zero does not round to another number. -/
theorem roundsHere_zero (hx : x.isZero = false) {scale : Nat} (hscale : 0 < scale) : x.roundsHere scale 0 = false := by
  have hmantissa := mantissa_pos hx
  have hbound : 0 < x.lowerBound * scale := by
    refine Nat.mul_pos (Nat.mul_pos ?_ (Nat.pow_pos (n := x.exponent.toNat) (by decide))) hscale
    split <;> omega
  have hle : ¬ x.lowerBound * scale ≤ 0 := Nat.not_le_of_lt hbound
  have hlt : ¬ x.lowerBound * scale < 0 := Nat.not_lt_zero _
  unfold roundsHere
  split
  · rw [decide_eq_false hle, Bool.false_and]
  · rw [decide_eq_false hlt, Bool.false_and]

/-- What is found on a grid for a number that is not zero is not zero. -/
theorem pos_of_onGrid? (hx : x.isZero = false) {k : Int} {d : Nat} (h : x.onGrid? k = some d) : 0 < d := by
  have hscale : 0 < Nat.pow 10 (-k).toNat := Nat.pow_pos (n := (-k).toNat) (by decide)
  have hbelow : ∀ {d unit : Nat}, x.roundsHere (Nat.pow 10 (-k).toNat) (d * unit) = true → 0 < d := by
    intro d unit hround
    refine Nat.pos_of_ne_zero ?_
    rintro rfl
    rw [Nat.zero_mul, roundsHere_zero hx hscale] at hround
    cases hround
  unfold onGrid? at h
  simp only at h
  split at h
  · rename_i hboth
    rw [Bool.and_eq_true] at hboth
    have hpos := hbelow hboth.1
    cases h
    split <;> omega
  · split at h
    · rename_i hround
      cases h
      exact hbelow hround
    · split at h <;> cases h
      exact Nat.succ_pos _

/-- The digits of a number are those of zero, or of a number that is not zero. -/
theorem shortest_eq_zero_or_pos (x : Binary64) : x.shortest = (0, 0) ∨ 0 < x.shortest.1 := by
  unfold shortest
  split
  · exact .inl rfl
  · rename_i hx
    cases hfind : gridExponents.findSome? fun k => (x.onGrid? k).map fun d => (d, k) with
    | none => exact .inl rfl
    | some p =>
      obtain ⟨k, -, hk⟩ := List.exists_of_findSome?_eq_some hfind
      obtain ⟨d, hd, rfl⟩ := Option.map_eq_some_iff.mp hk
      exact .inr (pos_of_onGrid? (by simpa using hx) hd)

section Layouts

variable {digits : List Char} (hdigits : isDigits digits = true) (hhead : digits.head? ≠ some '0')
include hdigits hhead

theorem plain_parts (places : Int) :
    ∃ w f, plain digits places = w ++ f ∧ isWhole w = true ∧ isFraction f = true := by
  obtain ⟨hne, hall⟩ := isDigits_iff.mp hdigits
  unfold plain
  split
  · refine ⟨['0'], '.' :: (List.replicate (-places).toNat '0' ++ digits), rfl, rfl, ?_⟩
    have hpart : isDigits (List.replicate (-places).toNat '0' ++ digits) = true := by
      refine isDigits_iff.mpr ⟨by simp [hne], List.forall_mem_append.mpr ⟨?_, hall⟩⟩
      intro c hc
      rw [List.eq_of_mem_replicate hc]
      rfl
    have hfraction := isFraction_point hpart (e := []) rfl
    rwa [List.append_nil] at hfraction
  · rename_i hplaces
    obtain ⟨c, cs, rfl⟩ := List.exists_cons_of_ne_nil hne
    obtain ⟨n, hn⟩ : ∃ n, places.toNat = n + 1 := ⟨places.toNat - 1, by omega⟩
    simp only [hn]
    refine ⟨_, _, rfl, isWhole_of_head? (isDigits_iff.mpr ⟨by simp, ?_⟩) (by simpa using hhead), ?_⟩
    · refine List.forall_mem_append.mpr ⟨fun a ha => hall a (List.mem_of_mem_take ha), fun a ha => ?_⟩
      rw [List.eq_of_mem_replicate ha]
      rfl
    · have hpart : isDigits (if ((c :: cs).drop (n + 1)).isEmpty then ['0'] else (c :: cs).drop (n + 1)) = true := by
        split
        · rfl
        · rename_i hempty
          refine isDigits_iff.mpr ⟨by simpa using hempty, fun a ha => hall a (List.mem_of_mem_drop ha)⟩
      have hfraction := isFraction_point hpart (e := []) rfl
      rwa [List.append_nil] at hfraction

theorem scientific_parts (k : Int) :
    ∃ w f, scientific digits k = w ++ f ∧ isWhole w = true ∧ isFraction f = true := by
  obtain ⟨hne, hall⟩ := isDigits_iff.mp hdigits
  obtain ⟨c, cs, rfl⟩ := List.exists_cons_of_ne_nil hne
  have hexponent : isExponent ('e' :: (if k < 0 then '-' else '+') :: Nat.toDigits 10 k.natAbs) = true := by
    have hpower := isDigits_toDigits k.natAbs
    split <;> simp [isExponent, hpower]
  refine ⟨[c], _, List.append_assoc [c] _ _, ?_, ?_⟩
  · refine isWhole_of_head? (isDigits_iff.mpr ⟨by simp, fun a ha => hall a ?_⟩) hhead
    exact List.mem_cons.mpr (.inl (List.mem_singleton.mp ha))
  · show isFraction ((if cs.isEmpty then [] else '.' :: cs) ++ _) = true
    cases cs with
    | nil => exact hexponent
    | cons b cs =>
      refine isFraction_point (isDigits_iff.mpr ⟨by simp, fun a ha => ?_⟩) hexponent
      exact hall a (List.mem_cons_of_mem _ ha)

end Layouts

/-- The text of `d · 10 ^ k`. -/
def magnitude (d : Nat) (k : Int) : List Char :=
  let digits := Nat.toDigits 10 d
  let e := k + (digits.length : Int) - 1
  if layout.least ≤ e ∧ e ≤ layout.greatest then plain digits (e + 1) else scientific digits e

theorem text_eq (x : Binary64) : x.text =
    if x.isNegative then '-' :: magnitude x.shortest.1 x.shortest.2 else magnitude x.shortest.1 x.shortest.2 := by
  unfold text magnitude
  generalize x.shortest = p
  rfl

theorem magnitude_parts {d : Nat} (hd : 0 < d) (k : Int) :
    ∃ w f, magnitude d k = w ++ f ∧ isWhole w = true ∧ isFraction f = true := by
  have hdigits := isDigits_toDigits d
  have hhead := head?_toDigits (Nat.pos_iff_ne_zero.mp hd)
  unfold magnitude
  simp only
  split
  · exact plain_parts hdigits hhead _
  · exact scientific_parts hdigits hhead _

theorem isNumber_text (x : Binary64) : isNumber x.text = true := by
  have hboth : isNumber (magnitude x.shortest.1 x.shortest.2) = true ∧
      isNumber ('-' :: magnitude x.shortest.1 x.shortest.2) = true := by
    rcases shortest_eq_zero_or_pos x with hzero | hpos
    · rw [hzero]
      decide
    · obtain ⟨w, f, heq, hw, hf⟩ := magnitude_parts hpos x.shortest.2
      rw [heq]
      exact isNumber_append hw hf
  rw [text_eq]
  split
  · exact hboth.2
  · exact hboth.1

end Binary64
end Avro
