import Avro.Error.Message
import Avro.Proofs.Derivation.Choice
import Avro.Proofs.Json.Documents

/-!
# Which defaults are documents

A value has a JSON form if nothing in it is of a kind that JSON has not (`Value.isSome_toJson?_iff`). A document type
accepts the values whose JSON form is an object, or an array if the type is a sequence, and no others: null has a JSON
form, but none of these (`encode_json_shape`).

The items of such an array are not looked at. So a type for lists of objects, which says of what it refuses that it must
be one, accepts lists of anything (`numbers_not_objects`).
-/

namespace Avro

namespace Json

/-- The value is an object. -/
def IsObject (j : Json) : Prop := ∃ es, j = obj es

/-- The value is an array. -/
def IsArray (j : Json) : Prop := ∃ items, j = arr items

/-- The value is an array of objects. -/
def IsObjects (j : Json) : Prop := ∃ items, j = arr items ∧ ∀ i ∈ items, i.IsObject

end Json

namespace Value

/-! ## Values with a JSON form -/

/-- Nothing in the value is of a kind that JSON has not, or a number that is not finite. -/
inductive Plain : Value → Prop
  | null : Plain .null
  | bool (b : Bool) : Plain (.bool b)
  | int (i : Int64) : Plain (.int i)
  | float {x : Binary64} : x.isFinite = true → Plain (.float x)
  | str (s : String) : Plain (.str s)
  | list {items : List Value} : (∀ v ∈ items, Plain v) → Plain (.list items)
  | dict {es : List (String × Value)} : (∀ e ∈ es, Plain e.2) → Plain (.dict es)
  | json (document : Json) : Plain (.json document)

/-- The JSON form of a list has those of the items. -/
theorem itemsToJson?_eq_some : ∀ {vs : List Value} {js : List Json}, itemsToJson? vs = some js ↔
    List.Forall₂ (fun v j => v.toJson? = some j) vs js
  | [], js => by simp [itemsToJson?, eq_comm]
  | v :: vs, js => by
    unfold itemsToJson?
    constructor
    · intro h
      split at h
      · next hv hvs =>
        cases h
        exact .cons hv (itemsToJson?_eq_some.mp hvs)
      · cases h
    · rintro (_ | ⟨hv, hvs⟩)
      rw [hv, itemsToJson?_eq_some.mpr hvs]

/-- The JSON form of a dictionary has those of the values, under their keys. -/
theorem entriesToJson?_eq_some : ∀ {es : List (String × Value)} {js : Json.Entries}, entriesToJson? es = some js ↔
    List.Forall₂ (fun x y => y.1 = x.1 ∧ x.2.toJson? = some y.2) es js
  | [], js => by simp [entriesToJson?, eq_comm]
  | (k, v) :: es, js => by
    unfold entriesToJson?
    constructor
    · intro h
      split at h
      · next hv hes =>
        cases h
        exact .cons ⟨rfl, hv⟩ (entriesToJson?_eq_some.mp hes)
      · cases h
    · intro h
      cases h with
      | @cons _ y _ ys hy hys =>
        obtain ⟨k', j⟩ := y
        obtain ⟨rfl, hv⟩ := hy
        rw [show v.toJson? = some j from hv, entriesToJson?_eq_some.mpr hys]

mutual

/-- **A value has a JSON form if and only if nothing in it is of a kind that JSON has not.** -/
theorem isSome_toJson?_iff : ∀ v : Value, v.toJson?.isSome = true ↔ v.Plain
  | null => iff_of_true rfl .null
  | bool b => iff_of_true rfl (.bool b)
  | int i => iff_of_true rfl (.int i)
  | float x => by
    by_cases hx : x.isFinite = true
    · exact iff_of_true (by simp [toJson?, hx]) (.float hx)
    · refine iff_of_false (by simp [toJson?, hx]) fun h => ?_
      cases h with
      | float hfinite => exact hx hfinite
  | str s => iff_of_true rfl (.str s)
  | list items => by
    rw [toJson?, Option.isSome_map, isSome_itemsToJson?_iff items]
    refine ⟨.list, fun h => ?_⟩
    cases h with
    | list hitems => exact hitems
  | dict es => by
    rw [toJson?, Option.isSome_map, isSome_entriesToJson?_iff es]
    refine ⟨.dict, fun h => ?_⟩
    cases h with
    | dict hes => exact hes
  | json document => iff_of_true rfl (.json document)
  | bytes _ | date _ | time _ | moment _ | localTime _ | duration _ | uuid _ | decimal _ =>
    iff_of_false (by simp [toJson?]) fun h => by cases h

theorem isSome_itemsToJson?_iff : ∀ vs : List Value, (itemsToJson? vs).isSome = true ↔ ∀ v ∈ vs, v.Plain
  | [] => iff_of_true rfl (List.forall_mem_nil _)
  | v :: vs => by
    rw [List.forall_mem_cons, ← isSome_toJson?_iff v, ← isSome_itemsToJson?_iff vs, itemsToJson?]
    cases v.toJson? <;> cases itemsToJson? vs <;> simp

theorem isSome_entriesToJson?_iff : ∀ es : List (String × Value),
    (entriesToJson? es).isSome = true ↔ ∀ e ∈ es, e.2.Plain
  | [] => iff_of_true rfl (List.forall_mem_nil _)
  | e :: es => by
    rw [List.forall_mem_cons, ← isSome_toJson?_iff e.2, ← isSome_entriesToJson?_iff es, entriesToJson?]
    cases e.2.toJson? <;> cases entriesToJson? es <;> simp

end

/-! ## Which form it is -/

/-- The value is a dictionary, or a document that is an object. -/
def IsDict (v : Value) : Prop := (∃ es, v = dict es) ∨ ∃ es, v = json (.obj es)

/-- The value is a list, or a document that is an array. -/
def IsList (v : Value) : Prop := (∃ items, v = list items) ∨ ∃ items, v = json (.arr items)

/-- The value is a list of such dictionaries, or a document that is an array of objects. -/
def ListsDicts (v : Value) : Prop :=
  (∃ items, v = list items ∧ ∀ w ∈ items, w.IsDict) ∨ ∃ items, v = json (.arr items) ∧ ∀ j ∈ items, j.IsObject

variable {v : Value} {j : Json}

theorem toJson?_list {items : List Value} : (list items).toJson? = some j ↔
    ∃ js, List.Forall₂ (fun v j => v.toJson? = some j) items js ∧ .arr js = j := by
  simp only [toJson?, Option.map_eq_some_iff, itemsToJson?_eq_some]

theorem toJson?_dict {es : List (String × Value)} : (dict es).toJson? = some j ↔
    ∃ js, List.Forall₂ (fun x y => y.1 = x.1 ∧ x.2.toJson? = some y.2) es js ∧ Json.ofEntries js = j := by
  simp only [toJson?, Option.map_eq_some_iff, entriesToJson?_eq_some]

/-- Only dictionaries and documents read as objects, only lists and documents as arrays, and only nulls as null. -/
theorem form_of_toJson? (h : v.toJson? = some j) :
    (j.IsObject ↔ v.IsDict) ∧ (j.IsArray ↔ v.IsList) ∧ (j = .null ↔ v = .null ∨ v = .json .null) := by
  cases v with
  | list items =>
    obtain ⟨js, -, rfl⟩ := toJson?_list.mp h
    simp [Json.IsObject, Json.IsArray, IsDict, IsList]
  | dict es =>
    obtain ⟨js, -, rfl⟩ := toJson?_dict.mp h
    simp [Json.IsObject, Json.IsArray, IsDict, IsList, Json.ofEntries]
  | json document =>
    cases h
    cases j <;> simp [Json.IsObject, Json.IsArray, IsDict, IsList]
  | float x =>
    simp only [toJson?, Option.ite_none_right_eq_some, Option.some.injEq] at h
    obtain ⟨-, rfl⟩ := h
    simp [Json.IsObject, Json.IsArray, IsDict, IsList]
  | null | bool _ | int _ | str _ =>
    cases h
    simp [Json.IsObject, Json.IsArray, IsDict, IsList]
  | bytes _ | date _ | time _ | moment _ | localTime _ | duration _ | uuid _ | decimal _ => cases h

/-- What reads as an array of objects lists dictionaries. -/
theorem isObjects_iff (h : v.toJson? = some j) : j.IsObjects ↔ v.ListsDicts := by
  constructor
  · rintro ⟨js, rfl, hobjects⟩
    have hlist : v.IsList := (form_of_toJson? h).2.1.mp ⟨js, rfl⟩
    rcases hlist with ⟨items, rfl⟩ | ⟨js', rfl⟩
    · obtain ⟨_, hjs, he⟩ := toJson?_list.mp h
      cases he
      refine .inl ⟨items, rfl, fun w hw => ?_⟩
      obtain ⟨i, hi, hwi⟩ := exists_of_forall₂_left hjs hw
      exact (form_of_toJson? hwi).1.mp (hobjects i hi)
    · cases h
      exact .inr ⟨js, rfl, hobjects⟩
  · rintro (⟨items, rfl, hdicts⟩ | ⟨js, rfl, hobjects⟩)
    · obtain ⟨js, hjs, rfl⟩ := toJson?_list.mp h
      refine ⟨js, rfl, fun i hi => ?_⟩
      obtain ⟨w, hw, hwi⟩ := exists_of_forall₂_right hjs hi
      exact (form_of_toJson? hwi).1.mpr (hdicts w hw)
    · cases h
      exact ⟨js, rfl, hobjects⟩

end Value

/-! ## Documents -/

open RuleTable

variable {cx : Setting} {id : TypeId} {d : Descriptor} {v : Value}

/-- Null is refused like all that is neither an array nor an object: it makes no difference that it is no document. -/
theorem exists_document?_iff {isArray : Bool} :
    (∃ doc, Rule.document? v = some doc ∧ if isArray then doc.IsArray else doc.IsObject) ↔
      ∃ doc, v.toJson? = some doc ∧ if isArray then doc.IsArray else doc.IsObject := by
  have hnull : ¬ if isArray then Json.null.IsArray else Json.null.IsObject := by
    cases isArray <;> simp [Json.IsArray, Json.IsObject]
  unfold Rule.document?
  split
  · exact iff_of_false (by simp) fun ⟨_, h, hform⟩ => by cases h; exact hnull hform
  · exact iff_of_false (by simp) fun ⟨_, h, hform⟩ => by cases h; exact hnull hform
  · exact Iff.rfl

theorem encode_document (hget : cx.graph.get? id = some d) (hd : cx.graph.isJson d = true)
    (encode : TypeId → Value → Encode Json) : standard.encode cx id v = Rule.json.encode cx encode d v := by
  have hrule : cx.graph.ruleFor? d = some .json := by
    rcases TypeGraph.collection_of_isJson hd with ⟨key, value, hshape⟩ | ⟨element, hshape⟩ <;>
      simp [TypeGraph.ruleFor?, hshape, hd]
  rw [encode_eq hget hrule]
  rfl

theorem accepts_document_iff (hget : cx.graph.get? id = some d) (hd : cx.graph.isJson d = true) : cx.Accepts id v ↔
    ∃ doc, v.toJson? = some doc ∧ if cx.graph.isJsonArray d then doc.IsArray else doc.IsObject := by
  rw [← exists_document?_iff]
  unfold Setting.Accepts
  rw [encode_document hget hd (standard.encode cx)]
  simp only [Rule.json, Encode.outcome_ofExcept, Option.some.injEq, encodeDocument_ok_iff]
  constructor
  · rintro ⟨_, doc, hdoc, -, hform⟩
    exact ⟨doc, hdoc, hform⟩
  · rintro ⟨doc, hdoc, hform⟩
    exact ⟨_, doc, hdoc, rfl, hform⟩

/-- What is refused is refused as a whole. -/
theorem encodeDocument_error {isArray : Bool} (h : ∀ j, Rule.encodeDocument isArray v ≠ .ok j) :
    Rule.encodeDocument isArray v = .error (.expected (if isArray then "list of dict" else "dict") v) := by
  unfold Rule.encodeDocument at h ⊢
  split
  · next hdoc => exact absurd (by rw [hdoc]) (h _)
  · next hdoc => exact absurd (by rw [hdoc]) (h _)
  · rfl

/--
**Which values are documents of a type.** They are those whose JSON form is an object, or an array if the type is a
sequence; no more is asked of the items of an array, which form a list of objects just where the value lists
dictionaries. What is refused must be such a document, says the message.
-/
theorem encode_json_shape (hget : cx.graph.get? id = some d) (hd : cx.graph.isJson d = true) (v : Value) :
    (∀ encode, Rule.json.encode cx encode d v = standard.encode cx id v) ∧
    (cx.Accepts id v ↔
      ∃ doc, v.toJson? = some doc ∧ if cx.graph.isJsonArray d then doc.IsArray else doc.IsObject) ∧
    (cx.Accepts id v ↔ v.Plain ∧ if cx.graph.isJsonArray d then v.IsList else v.IsDict) ∧
    (∀ doc, v.toJson? = some doc → (doc.IsObjects ↔ v.ListsDicts)) ∧
    (¬ cx.Accepts id v → ∃ m, (standard.encode cx id v).outcome = some (.error m) ∧ m.path = [] ∧ ∀ showId,
      m.message showId =
        "must be " ++ (if cx.graph.isJsonArray d then "list of dict" else "dict") ++ "; got " ++ v.kindWord) := by
  have hencode : ∀ encode, Rule.json.encode cx encode d v = standard.encode cx id v := fun encode =>
    (encode_document hget hd encode).symm
  refine ⟨hencode, accepts_document_iff hget hd, ?_, fun doc hdoc => Value.isObjects_iff hdoc, fun hrefused => ?_⟩
  · rw [accepts_document_iff hget hd, ← Value.isSome_toJson?_iff, Option.isSome_iff_exists]
    constructor
    · rintro ⟨doc, hdoc, hform⟩
      obtain ⟨hobject, harray, -⟩ := Value.form_of_toJson? hdoc
      exact ⟨⟨doc, hdoc⟩, by rwa [← hobject, ← harray]⟩
    · rintro ⟨⟨doc, hdoc⟩, hform⟩
      obtain ⟨hobject, harray, -⟩ := Value.form_of_toJson? hdoc
      exact ⟨doc, hdoc, by rwa [hobject, harray]⟩
  · have herror : Rule.encodeDocument (cx.graph.isJsonArray d) v =
        .error (.expected (if cx.graph.isJsonArray d then "list of dict" else "dict") v) :=
      encodeDocument_error fun j hj => hrefused ⟨j, by rw [← hencode fun _ _ => Encode.endless]; exact congrArg some hj⟩
    refine ⟨_, by rw [← hencode fun _ _ => Encode.endless]; exact congrArg some herror, rfl, fun showId => ?_⟩
    rfl

/-! ## Lists of objects -/

/-- The type of lists of JSON objects. -/
def pageList : Descriptor := { name := "List", shape := .sequence { target := 1 } }

def pages : Setting :=
  .of ⟨#[
    some pageList,
    some { name := "Dict", shape := .map { target := 2 } { target := 3 } },
    some { name := "str", shape := .basic .string },
    some { name := "Any", shape := .basic .any }]⟩ {} none

/-- One page, which has one number. -/
def onePage : Value := .list [.dict [("n", .int 1)]]

theorem shape_onePage : pages.graph.get? 0 = some pageList ∧ pages.graph.isJson pageList = true ∧
    pages.graph.isJsonArray pageList = true ∧ onePage.toJson? = some (.arr [.obj [("n", .int 1)]]) ∧
    (pages.Accepts 0 onePage ↔ ∃ doc, onePage.toJson? = some doc ∧ doc.IsArray) ∧
    (pages.Accepts 0 onePage ↔ onePage.Plain ∧ onePage.IsList) ∧
    ((Json.arr [.obj [("n", .int 1)]]).IsObjects ↔ onePage.ListsDicts) := by
  have hform : onePage.toJson? = some (.arr [.obj [("n", .int 1)]]) := by cbv
  have hget : pages.graph.get? 0 = some pageList := rfl
  have hd : pages.graph.isJson pageList = true := rfl
  obtain ⟨-, haccept, hplain, hobjects, -⟩ := encode_json_shape hget hd onePage
  exact ⟨hget, hd, rfl, hform, haccept, hplain, hobjects _ hform⟩

/-- A list of numbers is accepted where a list of objects is asked for. -/
theorem numbers_not_objects : (standard.encode pages 0 (.list [.int 1])).outcome = some (.ok (.str "[1]")) ∧
    (Value.list [.int 1]).toJson? = some (.arr [.int 1]) ∧ ¬ (Json.arr [.int 1]).IsObjects ∧
    ¬ (pages.Accepts 0 (.list [.int 1]) ↔ ∃ doc, (Value.list [.int 1]).toJson? = some doc ∧ doc.IsObjects) := by
  have hencode : (standard.encode pages 0 (.list [.int 1])).outcome = some (.ok (.str "[1]")) := by cbv
  have hform : (Value.list [.int 1]).toJson? = some (.arr [.int 1]) := by cbv
  have hnot : ¬ (Json.arr [.int 1]).IsObjects := by
    rintro ⟨items, he, hobjects⟩
    cases he
    obtain ⟨es, h⟩ := hobjects _ List.mem_cons_self
    cases h
  refine ⟨hencode, hform, hnot, fun h => ?_⟩
  obtain ⟨doc, hdoc, hobjects⟩ := h.mp ⟨_, hencode⟩
  cases hform.symm.trans hdoc
  exact hnot hobjects

end Avro
