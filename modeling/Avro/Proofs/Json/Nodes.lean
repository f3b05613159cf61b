import Avro.Proofs.Tree.Labels
import Avro.Schema.Document

/-!
# What schemas are written as

`Schema.Written` says what JSON value stands for a schema: a text for a primitive type and for a reference, a list for a
union, and for all else an object with the keys of its kind. These have one order: `type`, `name`, `namespace`, `doc`,
what the kind is made of, `logicalType` with its attributes, `default`. Fields have theirs: `name`, `type`, `doc`,
`default`. A key that has no value is left out. There is just one such value, the JSON form of the schema (`written_iff`).
-/

namespace Avro

/-- The object with those keys that have a value, in this order. -/
def Json.ofKeys (parts : List (String × Option Json)) : Json := .obj (parts.filterMap fun p => p.2.map (p.1, ·))

namespace Schema

mutual

/-- The JSON value stands for the schema. -/
inductive Written : Schema → Json → Prop
  | primitive (p : Primitive) : Written (.primitive p) (.str p.name)
  | reference (fullName : String) : Written (.reference fullName) (.str fullName)
  | namedString (fullName : String) : Written (.namedString fullName) (.ofKeys [
      ("type", some (.str "string")),
      ("namedString", some (.str fullName))])
  | logical (base : Primitive) (logicalType : String) (attributes : Json.Entries) :
      Written (.logical base logicalType attributes) (.ofKeys ([
        ("type", some (.str base.name)),
        ("logicalType", some (.str logicalType))] ++ attributes.map fun a => (a.1, some a.2)))
  | fixed (name : String) (ns : Option String) (size : Nat) (logicalType : Option String) :
      Written (.fixed ⟨name, ns⟩ size logicalType) (.ofKeys [
        ("type", some (.str "fixed")),
        ("name", some (.str name)),
        ("namespace", ns.map .str),
        ("size", some (.int size)),
        ("logicalType", logicalType.map .str)])
  | enum (name : String) (ns doc : Option String) (symbols : List String) (default : String) :
      Written (.enum ⟨name, ns⟩ doc symbols default) (.ofKeys [
        ("type", some (.str "enum")),
        ("name", some (.str name)),
        ("namespace", ns.map .str),
        ("doc", doc.map .str),
        ("symbols", some (.arr (symbols.map .str))),
        ("default", some (.str default))])
  | record {fields : List (SchemaField Schema)} {items : List Json} (name : String) (ns doc : Option String) :
      FieldsWritten fields items → Written (.record ⟨name, ns⟩ doc fields) (.ofKeys [
        ("type", some (.str "record")),
        ("name", some (.str name)),
        ("namespace", ns.map .str),
        ("doc", doc.map .str),
        ("fields", some (.arr items))])
  | map {values : Schema} {v : Json} : Written values v → Written (.map values) (.ofKeys [
      ("type", some (.str "map")),
      ("values", some v)])
  | array {items : Schema} {v : Json} : Written items v → Written (.array items) (.ofKeys [
      ("type", some (.str "array")),
      ("items", some v)])
  | union {members : List Schema} {items : List Json} :
      MembersWritten members items → Written (.union members) (.arr items)

/-- The JSON values stand for the members of a union, one by one. -/
inductive MembersWritten : List Schema → List Json → Prop
  | nil : MembersWritten [] []
  | cons {s : Schema} {v : Json} {ss : List Schema} {vs : List Json} :
      Written s v → MembersWritten ss vs → MembersWritten (s :: ss) (v :: vs)

/-- The JSON values stand for the fields of a record, one by one. -/
inductive FieldsWritten : List (SchemaField Schema) → List Json → Prop
  | nil : FieldsWritten [] []
  | cons {type : Schema} {v : Json} {fs : List (SchemaField Schema)} {vs : List Json} (name : String)
      (doc : Option String) (default : Option Json) :
      Written type v → FieldsWritten fs vs → FieldsWritten (⟨name, type, doc, default⟩ :: fs) (.ofKeys [
        ("name", some (.str name)),
        ("type", some v),
        ("doc", doc.map .str),
        ("default", default)] :: vs)

end

/-! ## The JSON form -/

theorem toJson_logical (base : Primitive) (logicalType : String) (attributes : Json.Entries) :
    toJson (.logical base logicalType attributes) = .ofKeys ([("type", some (.str base.name)),
      ("logicalType", some (.str logicalType))] ++ attributes.map fun a => (a.1, some a.2)) := by
  simp [toJson, Json.ofKeys, List.filterMap_map]

theorem membersWritten_toJson {ss : List Schema} (h : ∀ s ∈ ss, s.Written s.toJson) :
    MembersWritten ss (membersToJson ss) := by
  induction ss with
  | nil => exact .nil
  | cons s ss ih =>
    obtain ⟨hs, hss⟩ := List.forall_mem_cons.mp h
    exact .cons hs (ih hss)

theorem fieldsWritten_toJson {fs : List (SchemaField Schema)} (h : ∀ f ∈ fs, f.type.Written f.type.toJson) :
    FieldsWritten fs (fieldsToJson fs) := by
  induction fs with
  | nil => exact .nil
  | cons f fs ih =>
    obtain ⟨hf, hfs⟩ := List.forall_mem_cons.mp h
    obtain ⟨name, type, doc, default⟩ := f
    have hwritten := FieldsWritten.cons name doc default hf (ih hfs)
    cases doc <;> cases default <;> exact hwritten

/-- The JSON form of a schema stands for it. -/
theorem written_toJson (s : Schema) : s.Written s.toJson := by
  have hparts : ∀ τ ∈ s.parts, τ.Written τ.toJson := fun τ hτ => written_toJson τ
  cases s with
  | primitive p => exact .primitive p
  | reference fullName => exact .reference fullName
  | namedString fullName => exact .namedString fullName
  | logical base logicalType attributes =>
    rw [toJson_logical]
    exact .logical base logicalType attributes
  | fixed heading size logicalType =>
    obtain ⟨name, ns⟩ := heading
    have hwritten := Written.fixed name ns size logicalType
    cases ns <;> cases logicalType <;> exact hwritten
  | enum heading doc symbols default =>
    obtain ⟨name, ns⟩ := heading
    have hwritten := Written.enum name ns doc symbols default
    cases ns <;> cases doc <;> exact hwritten
  | record heading doc fields =>
    obtain ⟨name, ns⟩ := heading
    have hwritten := Written.record name ns doc (fieldsWritten_toJson (List.forall_mem_map.mp hparts))
    cases ns <;> cases doc <;> exact hwritten
  | map values => exact .map (hparts values List.mem_cons_self)
  | array items => exact .array (hparts items List.mem_cons_self)
  | union members => exact .union (membersWritten_toJson hparts)
termination_by sizeOf s
decreasing_by exact sizeOf_parts hτ

mutual

theorem Written.unique : ∀ {s : Schema} {v w : Json}, s.Written v → s.Written w → v = w
  | _, _, _, .primitive _, .primitive _ => rfl
  | _, _, _, .reference _, .reference _ => rfl
  | _, _, _, .namedString _, .namedString _ => rfl
  | _, _, _, .logical .., .logical .. => rfl
  | _, _, _, .fixed .., .fixed .. => rfl
  | _, _, _, .enum .., .enum .. => rfl
  | _, _, _, .record _ _ _ h, .record _ _ _ h' => by rw [h.unique h']
  | _, _, _, .map h, .map h' => by rw [h.unique h']
  | _, _, _, .array h, .array h' => by rw [h.unique h']
  | _, _, _, .union h, .union h' => by rw [h.unique h']

theorem MembersWritten.unique : ∀ {ss : List Schema} {vs ws : List Json},
    MembersWritten ss vs → MembersWritten ss ws → vs = ws
  | _, _, _, .nil, .nil => rfl
  | _, _, _, .cons h hs, .cons h' hs' => by rw [h.unique h', hs.unique hs']

theorem FieldsWritten.unique : ∀ {fs : List (SchemaField Schema)} {vs ws : List Json},
    FieldsWritten fs vs → FieldsWritten fs ws → vs = ws
  | _, _, _, .nil, .nil => rfl
  | _, _, _, .cons _ _ _ h hs, .cons _ _ _ h' hs' => by rw [h.unique h', hs.unique hs']

end

/-- **Just the JSON form of a schema stands for it.** -/
theorem written_iff (s : Schema) (v : Json) : s.Written v ↔ v = s.toJson :=
  ⟨fun h => h.unique s.written_toJson, fun h => h ▸ s.written_toJson⟩

end Schema
end Avro
