import Avro.Proofs.Lists
import Avro.Uuid
import Mathlib.Data.List.Flatten
import Mathlib.Data.List.Induction
import Mathlib.Tactic.IntervalCases

/-!
# Spellings of identifiers

An identifier has four spellings, in either case of letters: its digits, the digits in groups, the groups in braces, and
the groups as a resource name (`Spells`). The reader takes these and nothing else (`parse?_eq_some_iff`), so no text
spells two identifiers. The canonical text is the one spelling in groups that has no capital letters (`eq_text_iff`).
-/

namespace Avro

open List (Forall₂)

namespace Text

/-- The character is the digit of a value below sixteen, in either case. -/
def IsDigit (d : Nat) (c : Char) : Prop := c = d.digitChar ∨ c = d.digitChar.toUpper

theorem digitValue?_eq_some_iff {c : Char} {d : Nat} : digitValue? c = some d ↔ d < 16 ∧ IsDigit d c := by
  constructor
  · intro h
    have hrange : ∃ n, c = Char.ofNat n ∧ (0x30 ≤ n ∧ n ≤ 0x39 ∧ d = n - 0x30 ∨ 0x41 ≤ n ∧ n ≤ 0x46 ∧ d = n - 0x37 ∨
        0x61 ≤ n ∧ n ≤ 0x66 ∧ d = n - 0x57) := by
      refine ⟨c.toNat, (Char.ofNat_toNat c).symm, ?_⟩
      unfold digitValue? at h
      grind
    obtain ⟨n, rfl, ⟨hle, hge, rfl⟩ | ⟨hle, hge, rfl⟩ | ⟨hle, hge, rfl⟩⟩ := hrange <;> unfold IsDigit <;>
      interval_cases n <;> decide
  · rintro ⟨hd, rfl | rfl⟩ <;> interval_cases d <;> rfl

/-- A digit that is no capital letter. -/
theorem IsDigit.eq_digitChar {d : Nat} {c : Char} (hd : d < 16) (h : IsDigit d c) (hc : ¬ c.isUpper) :
    c = d.digitChar := by
  rcases h with rfl | rfl
  · rfl
  · interval_cases d <;> first | rfl | exact absurd rfl hc

theorem not_isUpper_digitChar {d : Nat} (hd : d < 16) : ¬ d.digitChar.isUpper := by
  interval_cases d <;> decide

end Text

namespace Uuid

open Text (IsDigit digitValue?_eq_some_iff)

variable {s t : List Char} {u v : Uuid} {n count : Nat}

/-! ## Digits -/

/-- The values of the lowest `count` hexadecimal digits of a number, the highest first. -/
def nibbles (n count : Nat) : List Nat := (List.range count).map fun k => n / 16 ^ (count - 1 - k) % 16

theorem length_nibbles (n count : Nat) : (nibbles n count).length = count := by simp [nibbles]

theorem nibbles_succ (n count : Nat) : nibbles n (count + 1) = nibbles (n / 16) count ++ [n % 16] := by
  have hdigit : ∀ k < count, n / 16 ^ (count - k) % 16 = n / 16 / 16 ^ (count - 1 - k) % 16 := by
    intro k hk
    rw [Nat.div_div_eq_div_mul, ← Nat.pow_succ', show count - k = (count - 1 - k).succ by omega]
  simpa [nibbles, List.range_succ] using hdigit

theorem lt_of_mem_nibbles {d : Nat} (h : d ∈ nibbles n count) : d < 16 := by
  obtain ⟨k, -, rfl⟩ := List.mem_map.mp h
  exact Nat.mod_lt _ (by decide)

theorem digits_eq (n count : Nat) : digits n count = (nibbles n count).map Nat.digitChar := by
  induction count generalizing n with
  | zero => rfl
  | succ count ih => rw [digits, ih, nibbles_succ, List.map_append, List.map_singleton]

theorem readDigits?_concat (acc : Nat) (s : List Char) (c : Char) : readDigits? acc (s ++ [c]) =
    (readDigits? acc s).bind fun m => (Text.digitValue? c).map fun d => 16 * m + d := by
  induction s generalizing acc with
  | nil => cases h : Text.digitValue? c <;> simp [readDigits?, h]
  | cons a s ih =>
    simp only [List.cons_append, readDigits?]
    split
    · exact ih _
    · rfl

/-- Digits are read as the number that has them. -/
theorem readDigits?_eq_some_iff :
    readDigits? 0 s = some n ↔ n < 16 ^ s.length ∧ Forall₂ IsDigit (nibbles n s.length) s := by
  induction s using List.reverseRecOn generalizing n with
  | nil => simp [readDigits?, nibbles, eq_comm]
  | append_singleton s c ih =>
    rw [readDigits?_concat, List.length_append, List.length_singleton, nibbles_succ, forall₂_concat, Nat.pow_succ]
    simp only [Option.bind_eq_some_iff, Option.map_eq_some_iff, ih, digitValue?_eq_some_iff]
    constructor
    · rintro ⟨m, ⟨hm, hs⟩, d, ⟨hd, hc⟩, rfl⟩
      have hdiv : (16 * m + d) / 16 = m := by omega
      have hmod : (16 * m + d) % 16 = d := by omega
      rw [hdiv, hmod]
      exact ⟨by omega, hs, hc⟩
    · rintro ⟨hn, hs, hc⟩
      exact ⟨n / 16, ⟨by omega, hs⟩, n % 16, ⟨Nat.mod_lt _ (by decide), hc⟩, Nat.div_add_mod n 16⟩

/-- The text is the thirty-two digits of the identifier, each in either case. -/
def IsDigits (u : Uuid) (s : List Char) : Prop := Forall₂ IsDigit (nibbles u.value.toNat 32) s

theorem IsDigits.length_eq (h : u.IsDigits s) : s.length = 32 := by
  rw [← List.Forall₂.length_eq h, length_nibbles]

theorem ofDigits?_eq_some_iff : ofDigits? s = some u ↔ u.IsDigits s := by
  unfold ofDigits? IsDigits
  constructor
  · intro h
    split at h
    · next hlen =>
      obtain ⟨n, hn, rfl⟩ := Option.map_eq_some_iff.mp h
      obtain ⟨hlt, hs⟩ := readDigits?_eq_some_iff.mp hn
      rw [hlen] at hlt hs
      rw [BitVec.toNat_ofNat, Nat.mod_eq_of_lt (by omega)]
      exact hs
    · cases h
  · intro h
    have hlen : s.length = 32 := IsDigits.length_eq h
    have hn : readDigits? 0 s = some u.value.toNat := by
      refine readDigits?_eq_some_iff.mpr ?_
      rw [hlen]
      exact ⟨u.value.isLt, h⟩
    rw [if_pos hlen, hn, Option.map_some, BitVec.ofNat_toNat, BitVec.setWidth_eq]

/-! ## Groups -/

/-- Groups of 8, 4, 4, 4 and 12 characters. -/
def AreGroups (groups : List (List Char)) : Prop := groups.map List.length = [8, 4, 4, 4, 12]

/-- The text is the digits of the identifier in groups, with hyphens between. -/
def Grouped (u : Uuid) (s : List Char) : Prop :=
  ∃ groups, AreGroups groups ∧ u.IsDigits groups.flatten ∧ s = ['-'].intercalate groups

theorem AreGroups.cases {groups : List (List Char)} (h : AreGroups groups) : ∃ a b c d e : List Char,
    a.length = 8 ∧ b.length = 4 ∧ c.length = 4 ∧ d.length = 4 ∧ e.length = 12 ∧ groups = [a, b, c, d, e] := by
  simp only [AreGroups, List.map_eq_cons_iff, List.map_eq_nil_iff] at h
  obtain ⟨a, _, rfl, ha, b, _, rfl, hb, c, _, rfl, hc, d, _, rfl, hd, e, _, rfl, he, rfl⟩ := h
  exact ⟨a, b, c, d, e, ha, hb, hc, hd, he, rfl⟩

theorem split_at {k : Nat} {c : Char} (h : s[k]? = some c) : s = s.take k ++ c :: s.drop (k + 1) := by
  obtain ⟨hk, rfl⟩ := List.getElem?_eq_some_iff.mp h
  rw [List.getElem_cons_drop, List.take_append_drop]

/-- Taking the hyphens out leaves the groups. -/
theorem ungroup?_eq_some_iff : ungroup? s = some t ↔
    ∃ groups, AreGroups groups ∧ t = groups.flatten ∧ s = ['-'].intercalate groups := by
  unfold ungroup?
  constructor
  · intro h
    split at h
    · next hs =>
      obtain ⟨hlen, h8, h13, h18, h23⟩ := hs
      cases h
      refine ⟨[s.take 8, (s.drop 9).take 4, (s.drop 14).take 4, (s.drop 19).take 4, s.drop 24], ?_, ?_, ?_⟩
      · simp [AreGroups, hlen]
      · simp
      · have h13 := split_at (s := s.drop 9) (k := 4) (by rw [List.getElem?_drop]; exact h13)
        have h18 := split_at (s := s.drop 14) (k := 4) (by rw [List.getElem?_drop]; exact h18)
        have h23 := split_at (s := s.drop 19) (k := 4) (by rw [List.getElem?_drop]; exact h23)
        rw [List.drop_drop] at h13 h18 h23
        conv_lhs => rw [split_at h8, h13, h18, h23]
        simp [List.intercalate]
    · cases h
  · rintro ⟨groups, hgroups, rfl, rfl⟩
    obtain ⟨a, b, c, d, e, ha, hb, hc, hd, he, rfl⟩ := hgroups.cases
    rw [if_pos (by simp [List.intercalate, ha, hb, hc, hd, he])]
    simp (disch := omega) [List.intercalate, List.drop_append, List.drop_of_length_le, ha, hb, hc, hd]

theorem Grouped.length_eq (h : u.Grouped s) : s.length = 36 := by
  obtain ⟨groups, hgroups, -, rfl⟩ := h
  obtain ⟨a, b, c, d, e, ha, hb, hc, hd, he, rfl⟩ := hgroups.cases
  simp [List.intercalate, ha, hb, hc, hd, he]

theorem grouped_iff : (ungroup? s).bind ofDigits? = some u ↔ u.Grouped s := by
  simp only [Option.bind_eq_some_iff, ungroup?_eq_some_iff, ofDigits?_eq_some_iff, Grouped]
  constructor
  · rintro ⟨_, ⟨groups, hgroups, rfl, rfl⟩, hdigits⟩
    exact ⟨groups, hgroups, hdigits, rfl⟩
  · rintro ⟨groups, hgroups, hdigits, rfl⟩
    exact ⟨_, ⟨groups, hgroups, rfl, rfl⟩, hdigits⟩

/-! ## Spellings -/

/-- The texts that stand for an identifier. -/
inductive Spells (u : Uuid) : List Char → Prop
  | digits {s : List Char} (h : u.IsDigits s) : Spells u s
  | grouped {s : List Char} (h : u.Grouped s) : Spells u s
  | braced {s : List Char} (h : u.Grouped s) : Spells u ('{' :: s ++ ['}'])
  /-- As a resource name, with the prefix in any case of letters. -/
  | named {p s : List Char} (hp : p.map Char.toLower = "urn:uuid:".toList) (h : u.Grouped s) : Spells u (p ++ s)

theorem unwrap_braced (h : s.length = 36) : unwrap ('{' :: s ++ ['}']) = s := by
  have hlast : ('{' :: s ++ ['}']).getLast? = some '}' := List.getLast?_concat
  rw [unwrap, if_pos ⟨by simp [h], rfl, hlast⟩]
  exact List.take_left' h

theorem unwrap_named {p : List Char} (hp : p.map Char.toLower = "urn:uuid:".toList) (h : s.length = 36) :
    unwrap (p ++ s) = s := by
  have hlen : p.length = 9 := by simpa using congrArg List.length hp
  have hprefix : ((p ++ s).take 9).map Char.toLower = urn := by
    rw [List.take_left' hlen, hp]
    rfl
  rw [unwrap, if_neg (by simp [hlen, h]), if_pos ⟨by simp [hlen, h], hprefix⟩, List.drop_left' hlen]

theorem spells_of_grouped_unwrap (h : u.Grouped (unwrap s)) : u.Spells s := by
  unfold unwrap at h
  split at h
  · next hs =>
    obtain ⟨hlen, hopen, hclose⟩ := hs
    obtain ⟨t, rfl⟩ := List.getLast?_eq_some_iff.mp hclose
    cases t with
    | nil => cases hopen
    | cons c t =>
      cases hopen
      have ht : t.length = 36 := by simpa using hlen
      have hinner : (('{' :: t ++ ['}']).drop 1).take 36 = t := List.take_left' ht
      rw [hinner] at h
      exact .braced h
  · split at h
    · next hs =>
      rw [← List.take_append_drop 9 s]
      exact .named hs.2 h
    · exact .grouped h

/-- **A text is read as an identifier if and only if it spells it.** -/
theorem parse?_eq_some_iff : parse? s = some u ↔ u.Spells s := by
  unfold parse?
  constructor
  · intro h
    split at h
    · exact .digits (ofDigits?_eq_some_iff.mp h)
    · exact spells_of_grouped_unwrap (grouped_iff.mp h)
  · intro h
    cases h with
    | digits h => rw [if_pos h.length_eq, ofDigits?_eq_some_iff.mpr h]
    | grouped h =>
      have hlen := h.length_eq
      rw [if_neg (by omega), unwrap, if_neg (by omega), if_neg (by omega), grouped_iff.mpr h]
    | @braced s h => rw [if_neg (by simp [h.length_eq]), unwrap_braced h.length_eq, grouped_iff.mpr h]
    | @named p s hp h =>
      have hlen : (p ++ s).length = 45 := by simpa [h.length_eq] using congrArg List.length hp
      rw [if_neg (by omega), unwrap_named hp h.length_eq, grouped_iff.mpr h]

/-- No text spells two identifiers. -/
theorem Spells.unique (h : u.Spells s) (h' : v.Spells s) : u = v :=
  Option.some.inj ((parse?_eq_some_iff.mpr h).symm.trans (parse?_eq_some_iff.mpr h'))

/-! ## The canonical text -/

/-- The groups of the lower-case digits. -/
def groups (u : Uuid) : List (List Char) :=
  let d := digits u.value.toNat 32
  [d.take 8, (d.drop 8).take 4, (d.drop 12).take 4, (d.drop 16).take 4, d.drop 20]

theorem areGroups_groups (u : Uuid) : AreGroups u.groups := by simp [AreGroups, groups]

theorem flatten_groups (u : Uuid) : u.groups.flatten = digits u.value.toNat 32 := by
  simp only [groups]
  generalize digits u.value.toNat 32 = d
  have hdrop : ∀ k, (d.drop k).take 4 ++ d.drop (k + 4) = d.drop k := fun k => by
    rw [← List.drop_drop, List.take_append_drop]
  simp only [List.flatten_cons, List.flatten_nil, List.append_nil]
  rw [hdrop 16, hdrop 12, hdrop 8, List.take_append_drop]

theorem text_eq (u : Uuid) : u.text = ['-'].intercalate u.groups := by
  simp [text, groups, List.intercalate]

theorem isDigits_digits (u : Uuid) : u.IsDigits (digits u.value.toNat 32) := by
  rw [IsDigits, digits_eq, List.forall₂_map_right_iff, List.forall₂_same]
  exact fun _ _ => .inl rfl

/-- Digits without capital letters. -/
theorem IsDigits.eq_digits (h : u.IsDigits s) (hlower : ∀ c ∈ s, ¬ c.isUpper) : s = digits u.value.toNat 32 := by
  have hlt : ∀ d ∈ nibbles u.value.toNat 32, d < 16 := fun _ => lt_of_mem_nibbles
  rw [digits_eq]
  unfold IsDigits at h
  generalize nibbles u.value.toNat 32 = ds at h hlt
  induction h with
  | nil => rfl
  | cons hc _ ih =>
    obtain ⟨hd, hds⟩ := List.forall_mem_cons.mp hlt
    obtain ⟨hlow, hlows⟩ := List.forall_mem_cons.mp hlower
    rw [List.map_cons, ← hc.eq_digitChar hd hlow, ← ih hlows hds]

theorem not_isUpper_digits {c : Char} (h : c ∈ digits n count) : ¬ c.isUpper := by
  rw [digits_eq] at h
  obtain ⟨d, hd, rfl⟩ := List.mem_map.mp h
  exact Text.not_isUpper_digitChar (lt_of_mem_nibbles hd)

theorem AreGroups.mem_intercalate {groups : List (List Char)} (h : AreGroups groups) {c : Char} :
    c ∈ ['-'].intercalate groups ↔ c = '-' ∨ c ∈ groups.flatten := by
  obtain ⟨_, _, _, _, _, -, -, -, -, -, rfl⟩ := h.cases
  simp only [List.intercalate, List.intersperse, List.flatten_cons, List.flatten_nil, List.mem_append, List.mem_cons,
    List.not_mem_nil, or_false]
  tauto

theorem grouped_text (u : Uuid) : u.Grouped u.text :=
  ⟨u.groups, areGroups_groups u, flatten_groups u ▸ isDigits_digits u, text_eq u⟩

/-- **The canonical text is the digits in groups without capital letters.** -/
theorem eq_text_iff : s = u.text ↔ u.Grouped s ∧ ∀ c ∈ s, ¬ c.isUpper := by
  constructor
  · intro h
    rw [h]
    refine ⟨grouped_text u, fun c hc => ?_⟩
    rw [text_eq, (areGroups_groups u).mem_intercalate, flatten_groups] at hc
    rcases hc with rfl | hc
    · decide
    · exact not_isUpper_digits hc
  · rintro ⟨⟨groups, hgroups, hdigits, rfl⟩, hlower⟩
    have hflat : groups.flatten = u.groups.flatten := by
      rw [flatten_groups]
      exact hdigits.eq_digits fun c hc => hlower c (hgroups.mem_intercalate.mpr (.inr hc))
    have hgroups : groups = u.groups :=
      List.eq_iff_flatten_eq.mpr ⟨hflat, hgroups.trans (areGroups_groups u).symm⟩
    rw [text_eq, hgroups]

/-- Two identifiers have two texts. -/
theorem text_inj (h : u.text = v.text) : u = v := by
  have hu : u.Spells v.text := h ▸ Spells.grouped (grouped_text u)
  exact hu.unique (.grouped (grouped_text v))

end Uuid
end Avro
