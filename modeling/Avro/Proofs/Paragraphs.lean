import Avro.Text.Paragraph
import Mathlib.Data.List.DropRight
import Mathlib.Logic.Relation

/-!
# First paragraphs

The first paragraph of a text is its first block of lines that are not blank (`paragraphLines_eq`), where it does not
matter that a carriage return before a line feed belongs to the end of the line. It is on one line and has no blanks
around it, so it is its own first paragraph; and blank lines in front, blanks at the ends of lines and all that comes
behind the next blank line are not seen in it (`firstParagraph_normalizes`).
-/

namespace Avro.Text

/-- All characters are blanks. -/
def Blank (s : List Char) : Prop := ∀ c ∈ s, isBlank c = true

/-- There is no blank at either end. -/
structure Trimmed (s : List Char) : Prop where
  head : ∀ c, s.head? = some c → isBlank c = false
  last : ∀ c, s.getLast? = some c → isBlank c = false

/-! ## Trimming -/

section Trim

variable {s p : List Char}

theorem trim_eq (s : List Char) : trim s = (s.dropWhile isBlank).rdropWhile isBlank := rfl

theorem trim_eq_nil_iff : trim s = [] ↔ Blank s := by
  rw [trim_eq, List.rdropWhile_eq_nil_iff]
  constructor
  · intro h c hc
    rw [← List.takeWhile_append_dropWhile (p := isBlank) (l := s)] at hc
    rcases List.mem_append.mp hc with hc | hc
    · exact List.mem_takeWhile_imp hc
    · exact h c hc
  · exact fun h c hc => h c ((List.dropWhile_suffix _).subset hc)

/-- Blanks in front are not seen. -/
theorem trim_append_left (hp : Blank p) (s : List Char) : trim (p ++ s) = trim s := by
  rw [trim_eq, trim_eq, List.dropWhile_append_of_pos hp]

theorem rdropWhile_append (hp : Blank p) (s : List Char) :
    (s ++ p).rdropWhile isBlank = s.rdropWhile isBlank := by
  rw [List.rdropWhile, List.rdropWhile, List.reverse_append, List.dropWhile_append_of_pos]
  exact fun c hc => hp c (List.mem_reverse.mp hc)

/-- Blanks at the end are not seen. -/
theorem trim_append_right (hp : Blank p) (s : List Char) : trim (s ++ p) = trim s := by
  rw [trim_eq, trim_eq, List.dropWhile_append]
  split_ifs with hs
  · rw [List.isEmpty_iff] at hs
    rw [hs, List.dropWhile_eq_nil_iff.mpr hp]
  · exact rdropWhile_append hp _

theorem trimmed_trim (s : List Char) : Trimmed (trim s) := by
  constructor
  · intro c hc
    -- what is taken off the end leaves the first character as it is
    obtain ⟨r, hr⟩ := List.head?_eq_some_iff.mp hc
    have hprefix : c :: r <+: s.dropWhile isBlank := hr ▸ trim_eq s ▸ List.rdropWhile_prefix _ _
    obtain ⟨q, hq⟩ := hprefix
    have hhead := List.head?_dropWhile_not isBlank s
    rw [← hq] at hhead
    simpa using hhead
  · intro c hc
    obtain ⟨r, hr⟩ := List.getLast?_eq_some_iff.mp hc
    have hne : (s.dropWhile isBlank).rdropWhile isBlank ≠ [] := by
      rw [← trim_eq, hr]
      simp
    have hlast := List.rdropWhile_last_not isBlank _ hne
    simp only [← trim_eq, hr, List.getLast_append_singleton, Bool.not_eq_true] at hlast
    exact hlast

/-- A text without blanks at its ends stays as it is. -/
theorem Trimmed.trim_eq (h : Trimmed s) : trim s = s := by
  have hfront : s.dropWhile isBlank = s := by
    cases s with
    | nil => rfl
    | cons c r => rw [List.dropWhile_cons_of_neg (by simp [h.head c rfl])]
  rw [Text.trim_eq, hfront, List.rdropWhile_eq_self_iff]
  intro hne
  simp [h.last _ (List.getLast?_eq_some_getLast hne)]

end Trim

/-! ## Lines between line feeds -/

/-- What holds of texts on one line, and of a line with a text behind it of which it holds, holds of all texts. -/
theorem line_induction {P : List Char → Prop} (one : ∀ l, '\n' ∉ l → P l)
    (more : ∀ l r, '\n' ∉ l → P r → P (l ++ '\n' :: r)) : ∀ s, P s := by
  intro s
  by_cases h : '\n' ∈ s
  · obtain ⟨l, r, hs, hl⟩ := List.eq_append_cons_of_mem h
    have hlt : r.length < s.length := by
      rw [hs, List.length_append, List.length_cons]
      omega
    exact hs ▸ more l r hl (line_induction one more r)
  · exact one s h
termination_by s => s.length

/-- The trimmed lines between line feeds. What follows the last line feed is always one. -/
def rows (s : List Char) : List (List Char) := (s.splitOn '\n').map trim

section Rows

variable {s l p : List Char}

theorem rows_of_notMem (h : '\n' ∉ l) : rows l = [trim l] := by
  have hsplit : (['\n'].intercalate [l]).splitOn '\n' = [l] :=
    List.splitOn_intercalate '\n' (by simpa using h) (by simp)
  rw [List.intercalate_singleton] at hsplit
  rw [rows, hsplit, List.map_singleton]

theorem rows_append (s r : List Char) : rows (s ++ '\n' :: r) = rows s ++ rows r := by
  simp only [rows, List.splitOn_eq_splitOnP]
  rw [List.splitOnP_append_cons _ _ (by simp), List.map_append]

theorem rows_cons (h : '\n' ∉ l) (r : List Char) : rows (l ++ '\n' :: r) = trim l :: rows r := by
  rw [rows_append, rows_of_notMem h, List.singleton_append]

/-- Lines are trimmed and have no line feeds. -/
theorem trimmed_of_mem_rows (h : l ∈ rows s) : Trimmed l := by
  obtain ⟨m, -, rfl⟩ := List.mem_map.mp h
  exact trimmed_trim m

theorem notMem_of_mem_rows (s : List Char) : ∀ l ∈ rows s, '\n' ∉ l := by
  have htrim : ∀ {l : List Char}, '\n' ∉ l → '\n' ∉ trim l := fun hl hmem =>
    hl ((List.dropWhile_suffix _).subset ((List.rdropWhile_prefix _ _).subset hmem))
  induction s using line_induction with
  | one l hl =>
    rw [rows_of_notMem hl]
    simpa using htrim hl
  | more l r hl ih =>
    rw [rows_cons hl]
    exact List.forall_mem_cons.mpr ⟨htrim hl, ih⟩

/-- All lines are empty if and only if there is nothing but blanks. -/
theorem forall_mem_rows_iff : (∀ l ∈ rows s, l = []) ↔ Blank s := by
  induction s using line_induction with
  | one l hl =>
    rw [rows_of_notMem hl]
    simp [trim_eq_nil_iff]
  | more l r hl ih =>
    have hfeed : isBlank '\n' = true := by decide
    rw [rows_cons hl, List.forall_mem_cons, ih, trim_eq_nil_iff]
    simp only [Blank, List.mem_append, List.mem_cons, or_imp, forall_and, forall_eq, hfeed, true_and]

/-- Blanks in front of the first line are not seen. -/
theorem rows_append_left (hp : Blank p) (hfeed : '\n' ∉ p) (s : List Char) : rows (p ++ s) = rows s := by
  by_cases h : '\n' ∈ s
  · obtain ⟨l, r, rfl, hl⟩ := List.eq_append_cons_of_mem h
    rw [← List.append_assoc, rows_cons (by simp [hfeed, hl]), rows_cons hl, trim_append_left hp]
  · rw [rows_of_notMem (by simp [hfeed, h]), rows_of_notMem h, trim_append_left hp]

/-- Blanks at the end of the last line are not seen. -/
theorem rows_append_right (hp : Blank p) (hfeed : '\n' ∉ p) (s : List Char) : rows (s ++ p) = rows s := by
  induction s using line_induction with
  | one l hl => rw [rows_of_notMem (by simp [hfeed, hl]), rows_of_notMem hl, trim_append_right hp]
  | more l r hl ih => rw [List.append_assoc, List.cons_append, rows_cons hl, rows_cons hl, ih]

end Rows

/-! ## Lines -/

theorem lines_cons {c : Char} {r : List Char} (hfeed : c ≠ '\n') (hreturn : c = '\r' → ∀ r', r ≠ '\n' :: r') :
    lines (c :: r) =
      match lines r with
      | [] => [[c]]
      | l :: ls => (c :: l) :: ls := by
  rw [lines.eq_def]
  split
  · next h => cases h
  · next h => exact absurd (List.cons.inj h).1 hfeed
  · next h => exact absurd (List.cons.inj h).2 (hreturn (List.cons.inj h).1 _)
  · next h =>
    obtain ⟨rfl, rfl⟩ := List.cons.inj h
    rfl

/-- A line ends at a line feed; a carriage return in front of it is a part of the end. -/
theorem lines_append (r : List Char) : ∀ {l : List Char}, '\n' ∉ l →
    ∃ m, lines (l ++ '\n' :: r) = m :: lines r ∧ (l = m ∨ l = m ++ ['\r'])
  | [], _ => ⟨[], rfl, .inl rfl⟩
  | c :: l, h => by
    obtain ⟨hc, hl⟩ := List.ne_and_not_mem_of_not_mem_cons h
    by_cases hend : c = '\r' ∧ l = []
    · obtain ⟨rfl, rfl⟩ := hend
      exact ⟨[], rfl, .inr rfl⟩
    · obtain ⟨m, hm, hlm⟩ := lines_append r hl
      refine ⟨c :: m, ?_, hlm.imp (congrArg _) (congrArg _)⟩
      rw [List.cons_append, lines_cons hc.symm ?_, hm]
      rintro rfl r' hr
      cases l with
      | nil => exact hend ⟨rfl, rfl⟩
      | cons x l => exact hl (List.mem_cons.mpr (.inl (List.cons.inj hr).1.symm))

/-- A text on one line is a line, unless it is empty. -/
theorem lines_of_notMem : ∀ {l : List Char}, '\n' ∉ l → l ≠ [] → lines l = [l]
  | [c], h, _ => lines_cons (fun hc => h (by simp [hc])) (by simp)
  | c :: x :: l, h, _ => by
    obtain ⟨hc, hl⟩ := List.ne_and_not_mem_of_not_mem_cons h
    have hx : x ≠ '\n' := fun hx => hl (List.mem_cons.mpr (.inl hx.symm))
    rw [lines_cons hc.symm (fun _ r' hr => hx (List.cons.inj hr).1), lines_of_notMem hl (List.cons_ne_nil x l)]

/-- Trimmed lines are those between line feeds, without an empty one at the end. -/
theorem rows_eq (s : List Char) : ∃ rest, rows s = (lines s).map trim ++ rest ∧ ∀ l ∈ rest, l = [] := by
  induction s using line_induction with
  | one l hl =>
    rw [rows_of_notMem hl]
    by_cases hne : l = []
    · subst hne
      exact ⟨[[]], rfl, by simp⟩
    · exact ⟨[], by rw [lines_of_notMem hl hne]; rfl, by simp⟩
  | more l r hl ih =>
    obtain ⟨rest, hrest, hempty⟩ := ih
    obtain ⟨m, hm, hlm⟩ := lines_append r hl
    have htrim : trim l = trim m := by
      rcases hlm with rfl | rfl
      · rfl
      · exact trim_append_right (by simp [Blank, isBlank]) m
    exact ⟨rest, by rw [rows_cons hl, hm, hrest, htrim]; rfl, hempty⟩

/-! ## The first block -/

/-- The first lines that are not empty, up to the next one that is. -/
def firstBlock (ls : List (List Char)) : List (List Char) := (ls.dropWhile List.isEmpty).takeWhile fun l => !l.isEmpty

section Block

variable {xs ys : List (List Char)} {l : List Char}

theorem mem_of_mem_firstBlock (h : l ∈ firstBlock xs) : l ∈ xs ∧ l ≠ [] := by
  refine ⟨(List.dropWhile_suffix _).subset ((List.takeWhile_prefix _).subset h), ?_⟩
  simpa using List.mem_takeWhile_imp h

theorem firstBlock_append_left (h : ∀ l ∈ xs, l = []) (ys : List (List Char)) :
    firstBlock (xs ++ ys) = firstBlock ys := by
  rw [firstBlock, List.dropWhile_append_of_pos (by simpa using h), firstBlock]

theorem takeWhile_append_cons_of_neg {α : Type} {p : α → Bool} {y : α} (h : ¬ p y = true) (xs ys : List α) :
    (xs ++ y :: ys).takeWhile p = xs.takeWhile p := by
  induction xs with
  | nil => exact List.takeWhile_cons_of_neg h
  | cons x xs ih => rw [List.cons_append, List.takeWhile_cons, List.takeWhile_cons, ih]

theorem firstBlock_eq_nil_iff : firstBlock xs = [] ↔ ∀ l ∈ xs, l = [] := by
  induction xs with
  | nil => simp [firstBlock]
  | cons x xs ih =>
    cases x with
    | nil =>
      -- an empty line in front is passed over
      show firstBlock xs = [] ↔ ∀ l ∈ [] :: xs, l = []
      simpa using ih
    | cons c r => simp [firstBlock]

/-- What comes behind the block and an empty line is not seen. -/
theorem firstBlock_append_cons (h : ∃ l ∈ xs, l ≠ []) (ys : List (List Char)) :
    firstBlock (xs ++ [] :: ys) = firstBlock xs := by
  have hdrop : (xs ++ [] :: ys).dropWhile List.isEmpty = xs.dropWhile List.isEmpty ++ [] :: ys := by
    rw [List.dropWhile_append, if_neg]
    obtain ⟨l, hl, hne⟩ := h
    rw [List.isEmpty_iff, List.dropWhile_eq_nil_iff]
    exact fun hall => hne (List.isEmpty_iff.mp (hall l hl))
  rw [firstBlock, hdrop, takeWhile_append_cons_of_neg (by simp), firstBlock]

/-- Empty lines at the end are not seen. -/
theorem firstBlock_append_right (h : ∀ l ∈ ys, l = []) : firstBlock (xs ++ ys) = firstBlock xs := by
  by_cases hxs : ∀ l ∈ xs, l = []
  · rw [firstBlock_append_left hxs, firstBlock_eq_nil_iff.mpr h, firstBlock_eq_nil_iff.mpr hxs]
  · cases ys with
    | nil => rw [List.append_nil]
    | cons y ys =>
      obtain rfl := h y List.mem_cons_self
      exact firstBlock_append_cons (by simpa using hxs) ys

end Block

/-- The first paragraph is the first block of lines, as they are between line feeds. -/
theorem paragraphLines_eq (s : List Char) : paragraphLines s = firstBlock (rows s) := by
  obtain ⟨rest, hrest, hempty⟩ := rows_eq s
  rw [hrest, firstBlock_append_right hempty]
  rfl

/-! ## The paragraph on one line -/

/-- Lines without blanks at their ends make a text without blanks at its ends. -/
theorem trimmed_intercalate : ∀ {ls : List (List Char)}, ls ≠ [] → (∀ l ∈ ls, Trimmed l ∧ l ≠ []) →
    [' '].intercalate ls ≠ [] ∧ Trimmed ([' '].intercalate ls)
  | [l], _, h => by
    rw [List.intercalate_singleton]
    exact (h l List.mem_cons_self).symm
  | l :: m :: ls, _, h => by
    obtain ⟨hl, hne⟩ := h l List.mem_cons_self
    obtain ⟨hrest, htrim⟩ := trimmed_intercalate (List.cons_ne_nil m ls) fun x hx => h x (List.mem_cons_of_mem _ hx)
    rw [List.intercalate_cons_cons, List.append_assoc]
    refine ⟨by simp [hne], fun c hc => hl.head c ?_, fun c hc => htrim.last c ?_⟩
    · rwa [List.head?_append_of_ne_nil _ hne] at hc
    · rwa [List.getLast?_append_of_ne_nil _ (by simp), List.getLast?_append_of_ne_nil _ hrest] at hc

theorem notMem_intercalate {c : Char} (hc : c ≠ ' ') : ∀ {ls : List (List Char)}, (∀ l ∈ ls, c ∉ l) →
    c ∉ [' '].intercalate ls
  | [], _ => by simp
  | [l], h => by simpa using h
  | l :: m :: ls, h => by
    have hrest : c ∉ [' '].intercalate (m :: ls) := notMem_intercalate hc fun x hx => h x (List.mem_cons_of_mem _ hx)
    rw [List.intercalate_cons_cons]
    simp [h l List.mem_cons_self, hc, hrest]

theorem firstParagraph_eq_none_iff {s : String} : firstParagraph s = none ↔ firstBlock (rows s.toList) = [] := by
  unfold firstParagraph
  rw [paragraphLines_eq]
  split
  · next h => simp [h]
  · next h => simpa using h

theorem firstParagraph_eq_some_iff {s t : String} : firstParagraph s = some t ↔
    firstBlock (rows s.toList) ≠ [] ∧ t.toList = [' '].intercalate (firstBlock (rows s.toList)) := by
  unfold firstParagraph
  rw [paragraphLines_eq]
  split
  · next h => simp [h]
  · next h =>
    rw [Option.some.injEq, ← String.toList_inj, String.toList_ofList]
    exact ⟨fun ht => ⟨h, ht.symm⟩, fun ht => ht.2.symm⟩

/-- Texts with the same first block have the same first paragraph. -/
theorem firstParagraph_congr {s t : String} (h : firstBlock (rows s.toList) = firstBlock (rows t.toList)) :
    firstParagraph s = firstParagraph t := by
  rw [firstParagraph, firstParagraph, paragraphLines_eq, paragraphLines_eq, h]

/-- There is no first paragraph if and only if all lines are blank. -/
theorem firstParagraph_eq_none_iff_lines {s : String} :
    firstParagraph s = none ↔ ∀ l ∈ lines s.toList, trim l = [] := by
  obtain ⟨rest, hrest, hempty⟩ := rows_eq s.toList
  rw [firstParagraph_eq_none_iff, hrest, firstBlock_append_right hempty, firstBlock_eq_nil_iff, List.forall_mem_map]

section Paragraph

variable {s t : String} (h : firstParagraph s = some t)
include h

theorem trimmed_firstParagraph : t.toList ≠ [] ∧ Trimmed t.toList := by
  obtain ⟨hne, ht⟩ := firstParagraph_eq_some_iff.mp h
  rw [ht]
  refine trimmed_intercalate hne fun l hl => ?_
  obtain ⟨hmem, hl⟩ := mem_of_mem_firstBlock hl
  exact ⟨trimmed_of_mem_rows hmem, hl⟩

theorem notMem_firstParagraph : '\n' ∉ t.toList := by
  obtain ⟨-, ht⟩ := firstParagraph_eq_some_iff.mp h
  rw [ht]
  exact notMem_intercalate (by decide) fun l hl => notMem_of_mem_rows _ l (mem_of_mem_firstBlock hl).1

/-- A first paragraph is its own first paragraph. -/
theorem firstParagraph_idem : firstParagraph t = some t := by
  obtain ⟨hne, htrim⟩ := trimmed_firstParagraph h
  have hblock : firstBlock (rows t.toList) = [t.toList] := by
    rw [rows_of_notMem (notMem_firstParagraph h), htrim.trim_eq]
    simp [firstBlock, hne]
  rw [firstParagraph_eq_some_iff, hblock]
  simp

end Paragraph

/-! ## What is not seen in a first paragraph -/

/-- Blanks other than line feeds are put in front of a line or behind it. -/
inductive PadsLine : List Char → List Char → Prop
  | front {before pad after : List Char} : before = [] ∨ before.getLast? = some '\n' → Blank pad → '\n' ∉ pad →
      PadsLine (before ++ after) (before ++ pad ++ after)
  | back {before pad after : List Char} : after = [] ∨ (∃ r, after = '\n' :: r ∨ after = '\r' :: '\n' :: r) →
      Blank pad → '\n' ∉ pad → PadsLine (before ++ after) (before ++ pad ++ after)

/-- Lines are the same but for blanks at their ends. -/
theorem PadsLine.rows_eq {s t : List Char} (h : PadsLine s t) : rows t = rows s := by
  cases h with
  | @front before pad after hb hp hfeed =>
    rcases hb with rfl | hb
    · exact rows_append_left hp hfeed after
    · obtain ⟨b, rfl⟩ := List.getLast?_eq_some_iff.mp hb
      simp only [List.append_assoc, List.cons_append, List.nil_append]
      rw [rows_append, rows_append, rows_append_left hp hfeed]
  | @back before pad after ha hp hfeed =>
    rcases ha with rfl | ⟨r, rfl | rfl⟩
    · simpa using rows_append_right hp hfeed before
    · rw [rows_append, rows_append, rows_append_right hp hfeed]
    · -- the carriage return is one more blank at the end of the line
      have hreturn : Blank ['\r'] := by simp [Blank, isBlank]
      have hsplit (x : List Char) : rows (x ++ '\r' :: '\n' :: r) = rows x ++ rows r := by
        rw [← List.singleton_append, ← List.append_assoc, rows_append, rows_append_right hreturn (by simp)]
      rw [hsplit, hsplit, rows_append_right hp hfeed]

theorem rows_eq_of_padsLines {s t : List Char} (h : Relation.ReflTransGen PadsLine s t) : rows t = rows s := by
  induction h with
  | refl => rfl
  | tail _ hpad ih => exact hpad.rows_eq.trans ih

/-- The text is empty or starts with the end of a line. -/
def NewLine (s : String) : Prop := s = "" ∨ ∃ r, s = "\n" ++ r

/-- The block of a text is in front of a blank line behind it, with or without text behind that one. -/
theorem firstBlock_rest {front gap rest : String} (hfront : ¬ Blank front.toList) (hgap : Blank gap.toList)
    (hrest : NewLine rest) :
    firstBlock (rows (front ++ "\n" ++ gap ++ rest).toList) = firstBlock (rows front.toList) := by
  have hgaps : ∀ l ∈ rows gap.toList, l = [] := forall_mem_rows_iff.mpr hgap
  rcases hrest with rfl | ⟨r, rfl⟩
  · have hlist : (front ++ "\n" ++ gap ++ "").toList = front.toList ++ '\n' :: gap.toList := by simp
    rw [hlist, rows_append, firstBlock_append_right hgaps]
  · have hlist : (front ++ "\n" ++ gap ++ ("\n" ++ r)).toList =
        front.toList ++ '\n' :: (gap.toList ++ '\n' :: r.toList) := by simp
    have hline : ∃ l ∈ rows front.toList, l ≠ [] := by simpa [← forall_mem_rows_iff] using hfront
    rw [hlist, rows_append, rows_append]
    cases hg : rows gap.toList with
    | nil => simp [rows] at hg
    | cons l ls =>
      obtain rfl := hgaps l (hg ▸ List.mem_cons_self)
      rw [List.cons_append, firstBlock_append_cons hline]

/-- The first paragraph of a text, as a normal form of the text. -/
structure Normalizes (s : String) : Prop where
  /-- There is none if and only if all lines are blank. -/
  none_iff : firstParagraph s = none ↔ ∀ l ∈ lines s.toList, trim l = []
  /-- It is on one line, with something on it, and without blanks around it. -/
  nonempty : ∀ {t}, firstParagraph s = some t → t ≠ ""
  oneLine : ∀ {t}, firstParagraph s = some t → '\n' ∉ t.toList
  trimmed : ∀ {t}, firstParagraph s = some t → Trimmed t.toList
  /-- It is its own first paragraph. -/
  again : ∀ {t}, firstParagraph s = some t → firstParagraph t = some t
  /-- Blank lines in front are not seen. -/
  blankLines : ∀ {blanks : String}, Blank blanks.toList → firstParagraph (blanks ++ "\n" ++ s) = firstParagraph s
  /-- Blanks at the ends of any lines are not seen. -/
  padding : ∀ {t : String}, Relation.ReflTransGen PadsLine s.toList t.toList → firstParagraph t = firstParagraph s
  /-- What comes behind a blank line is not seen, if there is a line before that is not blank. -/
  rest : ∀ {front gap rest rest' : String}, s = front ++ "\n" ++ gap ++ rest → ¬ Blank front.toList →
    Blank gap.toList → NewLine rest → NewLine rest' → firstParagraph (front ++ "\n" ++ gap ++ rest') = firstParagraph s

/-- **The first paragraph of a text is a normal form of the text**, whatever the text. -/
theorem firstParagraph_normalizes (s : String) : Normalizes s where
  none_iff := firstParagraph_eq_none_iff_lines
  nonempty h := fun ht => (trimmed_firstParagraph h).1 (ht ▸ rfl)
  oneLine := notMem_firstParagraph
  trimmed h := (trimmed_firstParagraph h).2
  again := firstParagraph_idem
  blankLines {blanks} h := by
    refine firstParagraph_congr ?_
    have hlist : (blanks ++ "\n" ++ s).toList = blanks.toList ++ '\n' :: s.toList := by simp
    rw [hlist, rows_append, firstBlock_append_left (forall_mem_rows_iff.mpr h)]
  padding h := firstParagraph_congr (congrArg firstBlock (rows_eq_of_padsLines h))
  rest hs hfront hgap hrest hrest' := by
    rw [hs]
    exact firstParagraph_congr ((firstBlock_rest hfront hgap hrest').trans (firstBlock_rest hfront hgap hrest).symm)

/-- A lone carriage return is a blank, and is no end of a line. -/
example : firstParagraph " \n\u2003One\r line, \r\n and\u00a0\r\n another.\n\t\nNo more." =
    some "One\r line, and another." := by cbv

end Avro.Text
