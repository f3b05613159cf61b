import Avro.Error.Message
import Avro.Proofs.Derivation.Choice
import Avro.Proofs.Encoding.Refused
import Avro.Proofs.Termination.Fallback
import Mathlib

/-!
# Where a default does not fit

A default that is refused has a path to the part that does not fit. The path goes down the type and the value together
(`Setting.Navigates`): to an item of a list, a value of a map or the value of a field, each time behind parts that are
accepted, so to the first part that does not fit. It ends at a field without a value, at a type whose description is
gone, or at a value that its type refuses as a whole (`Setting.FailsAt`). The default is refused with a mismatch if and
only if this is what its path says (`encode_mismatch_path`). A union is the end of a path: which parts its members
refuse is not told.
-/

namespace Avro

open Encode RuleTable

/-! ## Ways into a type and a value -/

/-- One step down a type and a value, to a part that the encoding comes to. -/
inductive Setting.Descends (cx : Setting) : TypeId × Value → Segment → TypeId × Value → Prop
  | item {id : TypeId} {d : Descriptor} {element : Edge} {before after : List Value} {v : Value} :
      cx.graph.get? id = some d → d.shape = .sequence element → cx.graph.isJson d = false →
      (∀ w ∈ before, cx.Accepts element.target w) →
      Descends cx (id, .list (before ++ v :: after)) (.index before.length) (element.target, v)
  | value {id : TypeId} {d : Descriptor} {key value : Edge} {before after : Value.Entries} {k : String} {v : Value} :
      cx.graph.get? id = some d → d.shape = .map key value → cx.graph.isJson d = false →
      (∀ e ∈ before, cx.Accepts value.target e.2) →
      Descends cx (id, .dict (before ++ (k, v) :: after)) (.key k) (value.target, v)
  /-- The value of a field is its entry, or its default if there is none. -/
  | field {id : TypeId} {d : Descriptor} {before after : List Field} {f : Field} {es : Value.Entries} {v : Value} :
      cx.graph.get? id = some d → d.shape = .record (before ++ f :: after) →
      (∀ e ∈ es, ∃ g ∈ before ++ f :: after, g.name = e.1) → (∀ g ∈ before, cx.AcceptsField es g) →
      Rule.givenValue? es f = some v → Descends cx (id, .dict es) (.field f.name) (f.type.target, v)

/-- The segments lead from a value of a type to another value of another type. -/
inductive Setting.Navigates (cx : Setting) : TypeId × Value → List Segment → TypeId × Value → Prop
  | here (p : TypeId × Value) : Navigates cx p [] p
  | step {p q r : TypeId × Value} {s : Segment} {way : List Segment} :
      cx.Descends p s q → Navigates cx q way r → Navigates cx p (s :: way) r

/-- At the end of a way: what is wrong with the value there, with the rest of the path. -/
inductive Setting.FailsAt (cx : Setting) : TypeId × Value → List Segment → Reason → Prop
  /-- A field, behind fields that are accepted, has neither an entry nor a default. -/
  | missing {id : TypeId} {d : Descriptor} {before after : List Field} {f : Field} {es : Value.Entries} :
      cx.graph.get? id = some d → d.shape = .record (before ++ f :: after) →
      (∀ e ∈ es, ∃ g ∈ before ++ f :: after, g.name = e.1) → (∀ g ∈ before, cx.AcceptsField es g) →
      (∀ e ∈ es, e.1 ≠ f.name) → f.default = none → FailsAt cx (id, .dict es) [.field f.name] .noValue
  | gone {id : TypeId} {v : Value} : cx.graph.get? id = none → FailsAt cx (id, v) [] .typeGone
  /-- The type refuses the value as a whole. -/
  | whole {id : TypeId} {d : Descriptor} {v : Value} {reason : Reason} :
      cx.graph.get? id = some d → (standard.encode cx id v).outcome = some (.error (.here reason)) →
      FailsAt cx (id, v) [] reason

variable {cx : Setting} {id : TypeId} {d : Descriptor} {v : Value} {m n : Mismatch} {es : Value.Entries}
  {p q : TypeId × Value} {s : Segment} {way rest : List Segment} {reason : Reason}

/-! ## From the end of a way to its start -/

/-- What is wrong with a part is wrong with the value, one segment further. -/
theorem Setting.Descends.error (h : cx.Descends p s q) (hq : (standard.encode cx q.1 q.2).outcome = some (.error n)) :
    (standard.encode cx p.1 p.2).outcome = some (.error (n.within s)) := by
  cases h with
  | @item id d element before after v hget hd hj hbefore =>
    rw [encode_eq hget (TypeGraph.ruleFor?_sequence hd hj)]
    simp only [Rule.sequence, hd, outcome_map_error, encodeItems_error]
    exact ⟨before, v, after, n, rfl, hbefore, hq, by rw [Nat.zero_add]⟩
  | @value id d key value before after k v hget hd hj hbefore =>
    rw [encode_eq hget (TypeGraph.ruleFor?_map hd hj)]
    simp only [Rule.map, hd, outcome_map_error, encodeEntries_error]
    exact ⟨before, k, v, after, n, rfl, hbefore, hq, rfl⟩
  | @field id d before after f es v hget hd hknown hbefore hv =>
    rw [encode_eq hget (TypeGraph.ruleFor?_record hd)]
    simp only [Rule.record, hd, Rule.encodeRecord, unknownKey?_eq_none.mpr hknown, outcome_map_error,
      encodeFields_error]
    exact ⟨before, f, after, n, rfl, hbefore, by simpa only [hv] using hq, rfl⟩

theorem Setting.FailsAt.error (h : cx.FailsAt p rest reason) :
    (standard.encode cx p.1 p.2).outcome = some (.error ⟨rest, reason⟩) := by
  cases h with
  | @missing id d before after f es hget hd hknown hbefore hmissing hdefault =>
    have hnone := givenValue?_eq_none.mpr ⟨hmissing, hdefault⟩
    rw [encode_eq hget (TypeGraph.ruleFor?_record hd)]
    simp only [Rule.record, hd, Rule.encodeRecord, unknownKey?_eq_none.mpr hknown, outcome_map_error,
      encodeFields_error]
    exact ⟨before, f, after, .here .noValue, rfl, hbefore, by simp [hnone], rfl⟩
  | gone hget => exact encode_gone hget
  | whole _ h => exact h

/-- A value is refused for what is wrong at the end of a way. -/
theorem Setting.Navigates.error (h : cx.Navigates p way q) (hq : cx.FailsAt q rest reason) :
    (standard.encode cx p.1 p.2).outcome = some (.error ⟨way ++ rest, reason⟩) := by
  induction h with
  | here => exact hq.error
  | step hs _ ih => exact hs.error (ih hq)

/-! ## From the start of a way to its end -/

/-- A path that begins at a list begins with its first item that is refused. -/
theorem descends_of_sequence {element : Edge} (hget : cx.graph.get? id = some d) (hd : d.shape = .sequence element)
    (hj : cx.graph.isJson d = false) (hpath : m.path ≠ [])
    (h : (standard.encode cx id v).outcome = some (.error m)) :
    ∃ s q n, cx.Descends (id, v) s q ∧ (standard.encode cx q.1 q.2).outcome = some (.error n) ∧ n.within s = m := by
  rw [encode_eq hget (TypeGraph.ruleFor?_sequence hd hj)] at h
  simp only [Rule.sequence, hd] at h
  cases v with
  | list items =>
    simp only [outcome_map_error, encodeItems_error] at h
    obtain ⟨before, w, after, n, rfl, hbefore, hn, rfl⟩ := h
    exact ⟨_, _, n, .item hget hd hj hbefore, hn, by rw [Nat.zero_add]⟩
  | _ => exact absurd (refusesWhole_mustBe _ _ m (Option.some.inj h)) hpath

/-- A path that begins at a map begins with its first entry whose value is refused. -/
theorem descends_of_map {key value : Edge} (hget : cx.graph.get? id = some d) (hd : d.shape = .map key value)
    (hj : cx.graph.isJson d = false) (hpath : m.path ≠ [])
    (h : (standard.encode cx id v).outcome = some (.error m)) :
    ∃ s q n, cx.Descends (id, v) s q ∧ (standard.encode cx q.1 q.2).outcome = some (.error n) ∧ n.within s = m := by
  rw [encode_eq hget (TypeGraph.ruleFor?_map hd hj)] at h
  simp only [Rule.map, hd] at h
  cases v with
  | dict es =>
    simp only [outcome_map_error, encodeEntries_error] at h
    obtain ⟨before, k, w, after, n, rfl, hbefore, hn, rfl⟩ := h
    exact ⟨_, _, n, .value hget hd hj hbefore, hn, rfl⟩
  | _ => exact absurd (refusesWhole_mustBe _ _ m (Option.some.inj h)) hpath

/-- A path that begins at a record begins with its first field that has no value or one that is refused. -/
theorem fails_or_descends_of_record {fs : List Field} (hget : cx.graph.get? id = some d) (hd : d.shape = .record fs)
    (hpath : m.path ≠ []) (h : (standard.encode cx id v).outcome = some (.error m)) :
    cx.FailsAt (id, v) m.path m.reason ∨ ∃ s q n, cx.Descends (id, v) s q ∧
      (standard.encode cx q.1 q.2).outcome = some (.error n) ∧ n.within s = m := by
  rw [encode_eq hget (TypeGraph.ruleFor?_record hd)] at h
  simp only [Rule.record, hd, Rule.encodeRecord] at h
  cases v with
  | dict es =>
    dsimp only at h
    split at h
    · exact absurd (refusesWhole_mismatch _ m (Option.some.inj h)) hpath
    · next hknown =>
      simp only [outcome_map_error, encodeFields_error] at h
      obtain ⟨before, f, after, n, rfl, hbefore, hn, rfl⟩ := h
      have hkeys := unknownKey?_eq_none.mp hknown
      split at hn
      · next hv =>
        subst hn
        obtain ⟨hmissing, hdefault⟩ := givenValue?_eq_none.mp hv
        exact .inl (.missing hget hd hkeys hbefore hmissing hdefault)
      · next w hv => exact .inr ⟨_, _, n, .field hget hd hkeys hbefore hv, hn, rfl⟩
  | _ => exact absurd (refusesWhole_mustBe _ _ m (Option.some.inj h)) hpath

/-- A value is refused as it is, or because of the first part that is. -/
theorem fails_or_descends (h : (standard.encode cx id v).outcome = some (.error m)) :
    cx.FailsAt (id, v) m.path m.reason ∨ ∃ s q n, cx.Descends (id, v) s q ∧
      (standard.encode cx q.1 q.2).outcome = some (.error n) ∧ n.within s = m := by
  cases hget : cx.graph.get? id with
  | none =>
    cases (encode_gone hget).symm.trans h
    exact .inl (.gone hget)
  | some d =>
    by_cases hpath : m.path = []
    · obtain ⟨path, reason⟩ := m
      subst hpath
      exact .inl (.whole hget h)
    cases hr : cx.graph.ruleFor? d with
    | none =>
      cases (encode_noRule hget hr).symm.trans h
      exact absurd rfl hpath
    | some r =>
      by_cases hn : cx.graph.isNested d = true
      · unfold TypeGraph.isNested at hn
        split at hn
        · next hd => exact fails_or_descends_of_record hget hd hpath h
        · next hd => exact .inr (descends_of_map hget hd (by simpa using hn) hpath h)
        · next hd => exact .inr (descends_of_sequence hget hd (by simpa using hn) hpath h)
        · cases hn
      · rw [encode_eq hget hr] at h
        exact absurd (path_of_encode_error hr (by simpa using hn) h) hpath

/-- A value is refused for what is wrong at the end of its path. -/
theorem exists_navigates {path : List Segment}
    (h : (standard.encode cx id v).outcome = some (.error ⟨path, reason⟩)) :
    ∃ way q rest, cx.Navigates (id, v) way q ∧ cx.FailsAt q rest reason ∧ path = way ++ rest := by
  -- the mismatch of a part has one segment less
  induction path generalizing id v with
  | nil =>
    rcases fails_or_descends h with hfails | ⟨s, q, n, -, -, hn⟩
    · exact ⟨[], _, [], .here _, hfails, rfl⟩
    · cases hn
  | cons s path ih =>
    rcases fails_or_descends h with hfails | ⟨s', q, ⟨path', reason'⟩, hs, hq, hn⟩
    · exact ⟨[], _, s :: path, .here _, hfails, rfl⟩
    · cases hn
      obtain ⟨way, r, rest, hway, hfails, rfl⟩ := ih hq
      exact ⟨s :: way, r, rest, .step hs hway, hfails, rfl⟩

/-- A union refuses values as a whole. -/
theorem path_of_union {members : List Edge} (hget : cx.graph.get? id = some d) (hd : d.shape = .union members)
    (h : (standard.encode cx id v).outcome = some (.error m)) : m.path = [] := by
  have hr := TypeGraph.ruleFor?_union (g := cx.graph) hd
  rw [encode_eq hget hr] at h
  exact path_of_encode_error hr (by simp [TypeGraph.isNested, hd]) h

/-! ## Paths of mismatches -/

/--
**A default is refused for what is wrong at the end of its path, and for nothing else.** The path leads down the type
and the value together, behind parts that are accepted, to a field without a value, to a type that is gone, or to a
value that its type refuses as a whole. No path goes on behind a union.
-/
theorem encode_mismatch_path (cx : Setting) (id : TypeId) (v : Value) (m : Mismatch) :
    ((standard.encode cx id v).outcome = some (.error m) ↔
      ∃ way q rest, cx.Navigates (id, v) way q ∧ cx.FailsAt q rest m.reason ∧ m.path = way ++ rest) ∧
    ∀ way u w rest d members, cx.Navigates (id, v) way (u, w) → cx.graph.get? u = some d → d.shape = .union members →
      (standard.encode cx u w).outcome = some (.error ⟨rest, m.reason⟩) → m.path = way ++ rest → m.path = way := by
  refine ⟨⟨exists_navigates, ?_⟩, fun way u w rest d members _ hget hd hfails hpath => ?_⟩
  · rintro ⟨way, q, rest, hway, hfails, hpath⟩
    rw [hway.error hfails, ← hpath]
  · rw [hpath, show rest = [] from path_of_union hget hd hfails, List.append_nil]

/-- The title of a sheet. -/
def titleField : Field := { name := "title", type := { target := 3 }, default := some (.str "") }

/-- The rows of a sheet. -/
def rowsField : Field := { name := "rows", type := { target := 1 } }

/-- Sheets with rows of cells by their columns, which hold numbers or nothing. -/
def sheets : Setting :=
  .of ⟨#[
    some { name := "Sheet", shape := .record [titleField, rowsField] },
    some { name := "List", shape := .sequence { target := 2 } },
    some { name := "Dict", shape := .map { target := 3 } { target := 4 } },
    some { name := "str", shape := .basic .string },
    some { name := "Union", shape := .union [{ target := 5 }, { target := 6 }] },
    some { name := "int", shape := .basic .integer },
    some { name := "None", shape := .basic .null }]⟩ {} none

/-- Two rows, with a text in a cell of the second one. -/
def textInCell : Value :=
  .dict [("rows", .list [.dict [("a", .int 1)], .dict [("a", .null), ("b", .str "x")]])]

/-- What is wrong with them. -/
def cellMismatch : Mismatch := ⟨[.field "rows", .index 1, .key "b"], .expected "one of [int, None]" "str"⟩

theorem navigates_textInCell : sheets.Navigates (0, textInCell) cellMismatch.path (4, .str "x") := by
  have hrows : sheets.Descends (0, textInCell) (.field "rows")
      (1, .list [.dict [("a", .int 1)], .dict [("a", .null), ("b", .str "x")]]) := by
    have htitle : sheets.AcceptsField [("rows", .list [.dict [("a", .int 1)], .dict [("a", .null), ("b", .str "x")]])]
        titleField := ⟨.str "", rfl, .str "", by cbv⟩
    exact .field rfl (show _ = Shape.record ([titleField] ++ rowsField :: []) from rfl)
      (by simp [titleField, rowsField]) (by simpa using htitle) rfl
  have hrow : sheets.Descends (1, .list ([.dict [("a", .int 1)]] ++ .dict [("a", .null), ("b", .str "x")] :: []))
      (.index 1) (2, .dict [("a", .null), ("b", .str "x")]) := by
    have hfirst : sheets.Accepts 2 (.dict [("a", .int 1)]) := ⟨.obj [("a", .int 1)], by cbv⟩
    refine .item (d := { name := "List", shape := .sequence { target := 2 } }) rfl rfl rfl ?_
    simpa using hfirst
  have hcell : sheets.Descends (2, .dict ([("a", .null)] ++ ("b", .str "x") :: [])) (.key "b") (4, .str "x") := by
    have hnull : sheets.Accepts 4 .null := ⟨.null, by cbv⟩
    refine .value (d := { name := "Dict", shape := .map { target := 3 } { target := 4 } }) rfl rfl rfl ?_
    simpa using hnull
  exact .step hrows (.step hrow (.step hcell (.here _)))

theorem mismatch_path_textInCell :
    (standard.encode sheets 0 textInCell).outcome = some (.error cellMismatch) ∧
    cellMismatch.pathText = ".rows[1][\"b\"]" ∧
    (∃ way q rest, sheets.Navigates (0, textInCell) way q ∧ sheets.FailsAt q rest cellMismatch.reason ∧
      cellMismatch.path = way ++ rest) ∧
    (standard.encode sheets 4 (.str "x")).outcome = some (.error ⟨[], cellMismatch.reason⟩) ∧
    cellMismatch.path = [.field "rows", .index 1, .key "b"] := by
  have hencode : (standard.encode sheets 0 textInCell).outcome = some (.error cellMismatch) := by cbv
  have hcell : (standard.encode sheets 4 (.str "x")).outcome = some (.error ⟨[], cellMismatch.reason⟩) := by cbv
  obtain ⟨hiff, hunion⟩ := encode_mismatch_path sheets 0 textInCell cellMismatch
  exact ⟨hencode, by decide, hiff.mp hencode, hcell,
    hunion _ 4 _ [] _ _ navigates_textInCell rfl rfl hcell (List.append_nil _).symm⟩

end Avro
