import Avro.Proofs.Names
import Mathlib

/-!
# Words and paths

The checks of names and namespaces accept what the grammar of schemas asks for: a name is a word of ASCII
(`isWord_of_check`), a namespace words with dots between them (`isPath_of_checkNamespace`), and so is a full name
(`isPath_full`).
-/

namespace Avro

/-- A letter or an underscore, and behind it letters, digits and underscores, all of ASCII. -/
def IsWord (s : String) : Prop :=
  ∃ c cs, s.toList = c :: cs ∧ (c.isAlpha = true ∨ c = '_') ∧ ∀ x ∈ cs, x.isAlphanum = true ∨ x = '_'

/-- One word, or several with dots between them. -/
def IsPath (s : String) : Prop := ∃ ws : List String, ws ≠ [] ∧ (∀ w ∈ ws, IsWord w) ∧ s = ".".intercalate ws

/-! ## Words -/

theorem eq_underscore {c : Char} (h : c.toNat = 0x5F) : c = '_' := Char.ext (UInt32.toNat_inj.mp h)

theorem isAlpha_of_isStart {c : Char} (h : Name.isStart c = true) : c.isAlpha = true ∨ c = '_' := by
  simp only [Name.isStart, Bool.or_eq_true, Bool.and_eq_true, decide_eq_true_eq, beq_iff_eq] at h
  rcases h with (h | h) | h
  · exact .inl (by simp [Char.isAlpha, Char.isUpper, UInt32.le_iff_toNat_le]; omega)
  · exact .inl (by simp [Char.isAlpha, Char.isLower, UInt32.le_iff_toNat_le]; omega)
  · exact .inr (eq_underscore h)

theorem isAlphanum_of_isPart {c : Char} (h : Name.isPart c = true) : c.isAlphanum = true ∨ c = '_' := by
  simp only [Name.isPart, Bool.or_eq_true, Bool.and_eq_true, decide_eq_true_eq] at h
  rcases h with h | h
  · exact (isAlpha_of_isStart h).imp_left fun h => by simp [Char.isAlphanum, h]
  · exact .inl (by simp [Char.isAlphanum, Char.isDigit, UInt32.le_iff_toNat_le]; omega)

theorem isWord_of_isName {l : List Char} (h : Name.isName l = true) : IsWord (String.ofList l) := by
  cases l with
  | nil => cases h
  | cons c cs =>
    rw [Name.isName, Bool.and_eq_true, List.all_eq_true] at h
    exact ⟨c, cs, String.toList_ofList, isAlpha_of_isStart h.1, fun x hx => isAlphanum_of_isPart (h.2 x hx)⟩

/-- What is accepted as a name is a word. -/
theorem isWord_of_check {name : String} (h : Name.check name = .ok ()) : IsWord name := by
  unfold Name.check at h
  split at h
  · rename_i hname
    exact String.ofList_toList (s := name) ▸ isWord_of_isName hname
  · cases h

/-! ## Paths -/

theorem IsWord.isPath {s : String} (h : IsWord s) : IsPath s := ⟨[s], by simp, by simpa using h, by simp⟩

theorem segments_eq_splitOn (l : List Char) : Name.segments l = l.splitOn '.' := by
  rw [List.splitOn_eq_splitOnP]
  fun_induction Name.segments l with
  | case1 => rfl
  | case2 r ih => simp [List.splitOnP_cons_eq_if_modifyHead, ih]
  | case3 c r hc hs => exact absurd hs (Name.segments_ne_nil r)
  | case4 c r hc s ss hs ih =>
    have hne : ¬ (c == '.') = true := fun h => hc (by simpa using h)
    rw [List.splitOnP_cons_eq_if_modifyHead, if_neg hne, ← ih, hs]
    rfl

/-- The segments of a text with dots between them are the text. -/
theorem intercalate_segments (l : List Char) : ['.'].intercalate (Name.segments l) = l := by
  rw [segments_eq_splitOn, List.intercalate_splitOn]

/-- What is accepted as a namespace is a path, unless it is empty. -/
theorem isPath_of_checkNamespace {ns : String} (hne : ns ≠ "") (h : Name.checkNamespace ns = .ok ()) : IsPath ns := by
  unfold Name.checkNamespace at h
  rw [if_neg (by simpa using hne)] at h
  split at h
  · rename_i hnone
    rw [List.find?_eq_none] at hnone
    refine ⟨(Name.segments ns.toList).map String.ofList, by simp [Name.segments_ne_nil], ?_, ?_⟩
    · intro w hw
      obtain ⟨s, hs, rfl⟩ := List.mem_map.mp hw
      exact isWord_of_isName (by simpa using hnone s hs)
    · apply String.toList_inj.mp
      simp [String.toList_intercalate, intercalate_segments, Function.comp_def]
  · cases h

theorem intercalate_concat {α : Type} (sep l : List α) : ∀ {ls : List (List α)}, ls ≠ [] →
    sep.intercalate (ls ++ [l]) = sep.intercalate ls ++ sep ++ l
  | [], h => absurd rfl h
  | [m], _ => by simp [List.intercalate_cons_cons]
  | m :: n :: ls, _ => by
    have hrest : sep.intercalate (n :: ls ++ [l]) = sep.intercalate (n :: ls) ++ sep ++ l :=
      intercalate_concat sep l (List.cons_ne_nil n ls)
    rw [List.cons_append] at hrest
    simp only [List.cons_append, List.intercalate_cons_cons, hrest, List.append_assoc]

theorem intercalate_dot_concat {ws : List String} (h : ws ≠ []) (w : String) :
    ".".intercalate (ws ++ [w]) = ".".intercalate ws ++ "." ++ w := by
  apply String.toList_inj.mp
  rw [String.toList_intercalate, List.map_append, List.map_cons, List.map_nil,
    intercalate_concat _ _ (by simpa using h)]
  simp [String.toList_intercalate]

/-- A word behind a path, with a dot between them, is a path. -/
theorem IsPath.snoc {s w : String} (hs : IsPath s) (hw : IsWord w) : IsPath (s ++ "." ++ w) := by
  obtain ⟨ws, hne, hws, rfl⟩ := hs
  refine ⟨ws ++ [w], by simp, fun x hx => ?_, (intercalate_dot_concat hne w).symm⟩
  rcases List.mem_append.mp hx with hx | hx
  · exact hws x hx
  · exact List.mem_singleton.mp hx ▸ hw

/-- The full name of a word in a namespace is a path. -/
theorem isPath_full {ns : Option String} {name : String} (hns : ∀ n, ns = some n → IsPath n) (hname : IsWord name) :
    IsPath (Name.full ns name) := by
  cases ns with
  | none => exact hname.isPath
  | some n =>
    by_cases hn : n = ""
    · subst hn
      exact hname.isPath
    · rw [Name.full_some hn]
      exact (hns n rfl).snoc hname

namespace Setting.ValidHeading

variable {cx : Setting} {d : Descriptor} (h : cx.ValidHeading d)
include h

/-- The namespace of a valid heading is a path. -/
theorem isPath_ns {n : String} (hn : cx.nsOf d = some n) : IsPath n :=
  isPath_of_checkNamespace (fun he => cx.proper_nsOf d (hn.trans (congrArg some he))) (h.ns n hn)

/-- The full name of a valid heading is a path. -/
theorem isPath_fullName : IsPath (cx.fullNameOf d) :=
  cx.fullNameOf_eq d ▸ isPath_full (fun _ => h.isPath_ns) (isWord_of_check h.name)

end Setting.ValidHeading
end Avro
