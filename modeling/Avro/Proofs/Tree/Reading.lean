import Avro.Proofs.Definitions
import Avro.Proofs.Names
import Avro.Schema.Document

/-!
# Reading schemas back

`Schema.ofJson?` reads a schema from its JSON form: a text is the primitive type of that name or else a reference, a
list is a union, and an object is what its `type`, `logicalType` and `namedString` say. The JSON form of a derived
schema is read as the schema, but that a reference by the name of a primitive type is taken for that type
(`derive_readable`). Such references exist, since a type without a namespace may be called `int` (`toJson_intRecord`).
-/

namespace Avro

/-! ## Reading -/

/-- The text of the first entry with the key, if it is a text. -/
def Json.text? (es : Entries) (key : String) : Option String :=
  match es.get? key with
  | some (.str s) => some s
  | _ => none

namespace Schema

/-- The texts of a list in which all are texts. -/
def textsOf? : List Json → Option (List String)
  | [] => some []
  | .str s :: js => (textsOf? js).map (s :: ·)
  | _ => none

/-- The name and the namespace of a definition. -/
def headingOf? (es : Json.Entries) : Option Heading := (Json.text? es "name").map fun name => ⟨name, Json.text? es "namespace"⟩

def enumOf? (es : Json.Entries) : Option Schema := do
  let heading ← headingOf? es
  match es.get? "symbols" with
  | some (.arr js) => do
    let symbols ← textsOf? js
    let default ← Json.text? es "default"
    some (.enum heading (Json.text? es "doc") symbols default)
  | _ => none

def fixedOf? (es : Json.Entries) : Option Schema := do
  let heading ← headingOf? es
  match es.get? "size" with
  | some (.int size) => some (.fixed heading size.toNat (Json.text? es "logicalType"))
  | _ => none

/-- A primitive type, which may be refined or have a name of its own. -/
def primitiveOf? (es : Json.Entries) (name : String) : Option Schema := do
  let base ← Primitive.ofName? name
  match Json.text? es "namedString", Json.text? es "logicalType" with
  | some fullName, _ => some (.namedString fullName)
  | none, some logicalType =>
    some (.logical base logicalType (es.filter fun e => e.1 != "type" && e.1 != "logicalType"))
  | none, none => some (.primitive base)

/-- The schema of a text: the primitive type of the name, or a reference. -/
def ofText (s : String) : Schema :=
  match Primitive.ofName? s with
  | some p => .primitive p
  | none => .reference s

mutual

/-- The schema that a JSON value is read as. -/
def ofJson? : Json → Option Schema
  | .str s => some (ofText s)
  | .arr items => (membersOf? items).map .union
  | .obj es =>
    match Json.text? es "type" with
    | some "record" => do
      let heading ← headingOf? es
      let fields ← fieldsAt? es
      some (.record heading (Json.text? es "doc") fields)
    | some "enum" => enumOf? es
    | some "fixed" => fixedOf? es
    | some "map" => (schemaAt? "values" es).map .map
    | some "array" => (schemaAt? "items" es).map .array
    | some name => primitiveOf? es name
    | none => none
  | _ => none

def membersOf? : List Json → Option (List Schema)
  | [] => some []
  | j :: js => do
    let σ ← ofJson? j
    let σs ← membersOf? js
    some (σ :: σs)

/-- The schema in the first entry with the key. -/
def schemaAt? (key : String) : List (String × Json) → Option Schema
  | [] => none
  | (k, j) :: es => if k = key then ofJson? j else schemaAt? key es

/-- The fields in the first entry that has fields. -/
def fieldsAt? : List (String × Json) → Option (List (SchemaField Schema))
  | [] => none
  | (k, .arr js) :: es => if k = "fields" then fieldsOf? js else fieldsAt? es
  | _ :: es => fieldsAt? es

def fieldsOf? : List Json → Option (List (SchemaField Schema))
  | [] => some []
  | .obj es :: js => do
    let name ← Json.text? es "name"
    let type ← schemaAt? "type" es
    let fields ← fieldsOf? js
    some (⟨name, type, Json.text? es "doc", Json.Entries.get? es "default"⟩ :: fields)
  | _ => none

end

mutual

/-- The schema with each reference by the name of a primitive type taken for that type. -/
def asRead : Schema → Schema
  | record heading doc fields => record heading doc (fieldsAsRead fields)
  | map values => map (asRead values)
  | array items => array (asRead items)
  | union members => union (membersAsRead members)
  | reference name => ofText name
  | σ => σ

def membersAsRead : List Schema → List Schema
  | [] => []
  | σ :: σs => asRead σ :: membersAsRead σs

def fieldsAsRead : List (SchemaField Schema) → List (SchemaField Schema)
  | [] => []
  | ⟨name, type, doc, default⟩ :: ss => ⟨name, asRead type, doc, default⟩ :: fieldsAsRead ss

end

/-- No attribute of a logical type has one of the keys that say what an object is. -/
def PlainAttributes (σ : Schema) : Prop := ∀ base logicalType attributes,
  .logical base logicalType attributes ∈ σ.nodes → ∀ e ∈ attributes,
    e.1 ≠ "type" ∧ e.1 ≠ "logicalType" ∧ e.1 ≠ "namedString"

end Schema

/-! ## Texts -/

namespace Primitive

theorem ofName?_name (p : Primitive) : ofName? p.name = some p := by cases p <;> rfl

theorem eq_name_of_ofName? {s : String} {p : Primitive} (h : ofName? s = some p) : s = p.name := by
  have hname := List.find?_some h
  exact (eq_of_beq hname).symm

end Primitive

namespace Schema

theorem toJson_ofText (s : String) : (ofText s).toJson = .str s := by
  unfold ofText
  split
  · rename_i p hp
    rw [toJson, Primitive.eq_name_of_ofName? hp]
  · rfl

theorem textsOf?_map_str (ss : List String) : textsOf? (ss.map .str) = some ss := by
  induction ss with
  | nil => rfl
  | cons s ss ih => simp [textsOf?, ih]

/-! ## Parts -/

theorem membersAsRead_eq : ∀ σs : List Schema, membersAsRead σs = σs.map asRead
  | [] => rfl
  | σ :: σs => by simp [membersAsRead, membersAsRead_eq σs]

theorem fieldsAsRead_eq : ∀ ss : List (SchemaField Schema),
    fieldsAsRead ss = ss.map fun s => { s with type := s.type.asRead }
  | [] => rfl
  | ⟨_, _, _, _⟩ :: ss => by simp [fieldsAsRead, fieldsAsRead_eq ss]

theorem membersOf?_membersToJson {σs : List Schema} (h : ∀ σ ∈ σs, ofJson? σ.toJson = some σ.asRead) :
    membersOf? (membersToJson σs) = some (membersAsRead σs) := by
  induction σs with
  | nil => rfl
  | cons σ σs ih =>
    rw [List.forall_mem_cons] at h
    simp [membersToJson, membersOf?, membersAsRead, h.1, ih h.2]

theorem fieldsOf?_fieldsToJson {ss : List (SchemaField Schema)}
    (h : ∀ s ∈ ss, ofJson? s.type.toJson = some s.type.asRead) :
    fieldsOf? (fieldsToJson ss) = some (fieldsAsRead ss) := by
  induction ss with
  | nil => rfl
  | cons s ss ih =>
    obtain ⟨name, type, doc, default⟩ := s
    rw [List.forall_mem_cons] at h
    cases doc <;> cases default <;>
      simp [fieldsToJson, fieldsOf?, fieldsAsRead, optionalEntry, schemaAt?, Json.text?, Json.Entries.get?, h.1, ih h.2]

/-! ## Objects -/

theorem text?_type (kind : String) (es : Json.Entries) : Json.text? (("type", .str kind) :: es) "type" = some kind := rfl

theorem ofJson?_logical (base : Primitive) (logicalType : String) {attributes : Json.Entries}
    (h : ∀ e ∈ attributes, e.1 ≠ "type" ∧ e.1 ≠ "logicalType" ∧ e.1 ≠ "namedString") :
    ofJson? (.obj (("type", .str base.name) :: ("logicalType", .str logicalType) :: attributes)) =
      some (.logical base logicalType attributes) := by
  have hnamed : attributes.find? (fun e => e.1 == "namedString") = none := by
    rw [List.find?_eq_none]
    intro e he
    simpa using (h e he).2.2
  have hrest : attributes.filter (fun e => e.1 != "type" && e.1 != "logicalType") = attributes := by
    rw [List.filter_eq_self]
    intro e he
    simp [(h e he).1, (h e he).2.1]
  have hread : primitiveOf? (("type", .str base.name) :: ("logicalType", .str logicalType) :: attributes) base.name =
      some (.logical base logicalType attributes) := by
    simp [primitiveOf?, Primitive.ofName?_name, Json.text?, Json.Entries.get?, hnamed, hrest]
  rw [ofJson?, text?_type]
  cases base <;> exact hread

/-- **The JSON form of a schema is read as the schema, but for references by the name of a primitive type.** -/
theorem ofJson?_toJson (σ : Schema) (h : σ.PlainAttributes) : ofJson? σ.toJson = some σ.asRead := by
  have hparts : ∀ τ ∈ σ.parts, ofJson? τ.toJson = some τ.asRead := by
    intro τ hτ
    refine ofJson?_toJson τ fun base logicalType attributes hmem => h base logicalType attributes ?_
    rw [nodes_eq]
    exact List.mem_cons_of_mem _ (List.mem_flatMap.mpr ⟨τ, hτ, hmem⟩)
  cases σ with
  | primitive p => simp [toJson, ofJson?, ofText, Primitive.ofName?_name, asRead]
  | reference name => rfl
  | namedString fullName => rfl
  | logical base logicalType attributes => exact ofJson?_logical base logicalType (h _ _ _ List.mem_cons_self)
  | record heading doc fields =>
    have hfields := fieldsOf?_fieldsToJson fun s hs => hparts s.type (List.mem_map_of_mem hs)
    obtain ⟨name, ns⟩ := heading
    cases ns <;> cases doc <;>
      simp [toJson, ofJson?, Heading.entries, optionalEntry, Json.text?, Json.Entries.get?, headingOf?, fieldsAt?, hfields,
        asRead]
  | enum heading doc symbols default =>
    obtain ⟨name, ns⟩ := heading
    cases ns <;> cases doc <;>
      simp [toJson, ofJson?, Heading.entries, optionalEntry, Json.text?, Json.Entries.get?, headingOf?, enumOf?,
        textsOf?_map_str, asRead]
  | fixed heading size logicalType =>
    obtain ⟨name, ns⟩ := heading
    cases ns <;> cases logicalType <;>
      simp [toJson, ofJson?, Heading.entries, optionalEntry, Json.text?, Json.Entries.get?, headingOf?, fixedOf?, asRead]
  | map values =>
    have hvalues := hparts values List.mem_cons_self
    simp [toJson, ofJson?, text?_type, schemaAt?, hvalues, asRead]
  | array items =>
    have hitems := hparts items List.mem_cons_self
    simp [toJson, ofJson?, text?_type, schemaAt?, hitems, asRead]
  | union members =>
    have hmembers : membersOf? (membersToJson members) = _ := membersOf?_membersToJson hparts
    simp [toJson, ofJson?, hmembers, asRead]
termination_by sizeOf σ
decreasing_by exact sizeOf_parts hτ

/-! ## References by the names of primitive types -/

theorem membersToJson_eq : ∀ σs : List Schema, membersToJson σs = σs.map toJson
  | [] => rfl
  | σ :: σs => by simp [membersToJson, membersToJson_eq σs]

/-- The JSON form of a field, by that of its type. -/
theorem fieldsToJson_asRead {ss : List (SchemaField Schema)} (h : ∀ s ∈ ss, s.type.asRead.toJson = s.type.toJson) :
    fieldsToJson (fieldsAsRead ss) = fieldsToJson ss := by
  induction ss with
  | nil => rfl
  | cons s ss ih =>
    rw [List.forall_mem_cons] at h
    simp [fieldsAsRead, fieldsToJson, h.1, ih h.2]

/-- What a schema is read as has the same JSON form. -/
theorem toJson_asRead (σ : Schema) : σ.asRead.toJson = σ.toJson := by
  have hparts : ∀ τ ∈ σ.parts, τ.asRead.toJson = τ.toJson := fun τ hτ => toJson_asRead τ
  cases σ with
  | reference name => rw [asRead, toJson_ofText, toJson]
  | record heading doc fields =>
    simp [asRead, toJson, fieldsToJson_asRead fun s hs => hparts s.type (List.mem_map_of_mem hs)]
  | map values => simp [asRead, toJson, hparts values List.mem_cons_self]
  | array items => simp [asRead, toJson, hparts items List.mem_cons_self]
  | union members =>
    simp only [asRead, toJson, membersToJson_eq, membersAsRead_eq, List.map_map]
    exact congrArg Json.arr (List.map_congr_left hparts)
  | _ => rfl
termination_by sizeOf σ
decreasing_by exact sizeOf_parts hτ

theorem ofText_eq_reference_iff {name : String} : ofText name = .reference name ↔ Primitive.ofName? name = none := by
  unfold ofText
  cases Primitive.ofName? name <;> simp

theorem asRead_eq_self_iff_parts (σ : Schema) : σ.asRead = σ ↔
    (∀ name, σ = .reference name → Primitive.ofName? name = none) ∧ ∀ τ ∈ σ.parts, τ.asRead = τ := by
  cases σ with
  | reference name => simp [asRead, parts, ofText_eq_reference_iff]
  | record heading doc fields =>
    have hfield (s : SchemaField Schema) : ({ s with type := s.type.asRead } = s) ↔ s.type.asRead = s.type := by
      cases s
      simp
    simp [asRead, parts, fieldsAsRead_eq, map_eq_self_iff, hfield]
  | union members => simp [asRead, parts, membersAsRead_eq, map_eq_self_iff]
  | map values | array items => simp [asRead, parts]
  | _ => simp [asRead, parts]

/-- A schema is read as itself if and only if no reference is by the name of a primitive type. -/
theorem asRead_eq_self_iff (σ : Schema) :
    σ.asRead = σ ↔ ∀ name, .reference name ∈ σ.nodes → Primitive.ofName? name = none := by
  have hparts : ∀ τ ∈ σ.parts, (τ.asRead = τ ↔ ∀ name, .reference name ∈ τ.nodes → Primitive.ofName? name = none) :=
    fun τ hτ => asRead_eq_self_iff τ
  rw [asRead_eq_self_iff_parts, nodes_eq, forall₂_congr hparts]
  simp only [List.mem_cons, List.mem_flatMap]
  constructor
  · rintro ⟨hself, hparts⟩ name (h | ⟨τ, hτ, h⟩)
    · exact hself name h.symm
    · exact hparts τ hτ name h
  · intro h
    exact ⟨fun name hname => h name (.inl hname.symm), fun τ hτ name hname => h name (.inr ⟨τ, hτ, hname⟩)⟩
termination_by sizeOf σ
decreasing_by exact sizeOf_parts hτ

end Schema

/-! ## Schemas that are derived -/

variable {cx : Setting} {r : Node}

/-- The attributes of a decimal type are its parameters, and other logical types have none. -/
theorem plainAttributes_of_derived (hr : Derived cx r) : r.schema.PlainAttributes := by
  intro base logicalType attributes hmem e he
  rw [← map_schema_labelled hr] at hmem
  obtain ⟨x, hx, hσ⟩ := List.mem_map.mp hmem
  have htrans := translates_of_mem hr hx
  rw [hσ] at htrans
  cases htrans with
  | leaf _ hl =>
    cases hl with
    | refined | json => cases he
    | @decimal _ t hd ht =>
      have hkey : e.1 = "precision" ∨ e.1 = "scale" := by
        unfold Rule.decimalAttributes at he
        split at he <;> grind
      rcases hkey with hkey | hkey <;> simp [hkey]

theorem Primitive.dot_notMem_name (p : Primitive) : '.' ∉ p.name.toList := by cases p <;> decide +kernel

/-- The full name of a type in a namespace is not that of a primitive type. -/
theorem ofName?_fullNameOf {d : Descriptor} (h : cx.nsOf d = none → Primitive.ofName? d.name = none) :
    Primitive.ofName? (cx.fullNameOf d) = none := by
  cases hns : cx.nsOf d with
  | none => simpa [cx.fullNameOf_eq d, hns, Name.full_none] using h hns
  | some ns =>
    cases hp : Primitive.ofName? (cx.fullNameOf d) with
    | none => rfl
    | some p => exact absurd (Primitive.eq_name_of_ofName? hp ▸ cx.dot_mem_fullNameOf d hns) p.dot_notMem_name

/-- A reference is by the full name of a named type, if no type is known by its name only. -/
theorem exists_type_of_reference (hr : Derived cx r) (hs : Scoped cx [] (cx.labelled r))
    (hforward : cx.graph.NoForward r.type) {name : String} (href : .reference name ∈ r.schema.nodes) :
    ∃ id d, cx.graph.Reachable r.type id ∧ cx.graph.get? id = some d ∧ d.isNamed = true ∧ name = cx.fullNameOf d := by
  rw [← map_schema_labelled hr] at href
  obtain ⟨x, hx, hσ⟩ := List.mem_map.mp href
  obtain ⟨d, hget, hn⟩ := named_of_reference hr hforward hx hσ
  refine ⟨x.type, d, reachable_of_mem hr hx, hget, hn, ?_⟩
  rcases hs.definition_or_reference hget hn hx with hdef | href'
  · simp [hσ, Schema.definedName?] at hdef
  · cases hσ.symm.trans href'
    rfl

/--
**The JSON form of a schema is read as the schema, but with a primitive type for each reference by the name of one.**
So it is read as the schema itself if and only if there is no such reference, as there is none if each named type that
has the name of a primitive type has a namespace. Two schemas have one JSON form if and only if they are read as one.
-/
theorem derive_readable {root : TypeId} {tree : Schema} (h : RuleTable.standard.derive cx root = .ok tree) :
    Schema.ofJson? tree.toJson = some tree.asRead ∧
    (Schema.ofJson? tree.toJson = some tree ↔ ∀ name, .reference name ∈ tree.nodes → Primitive.ofName? name = none) ∧
    (∀ {cx' root' tree'}, RuleTable.standard.derive cx' root' = .ok tree' →
      (tree.toJson = tree'.toJson ↔ tree.asRead = tree'.asRead)) ∧
    (cx.graph.NoForward root → (∀ {id d}, cx.graph.Reachable root id → cx.graph.get? id = some d → d.isNamed = true →
      cx.nsOf d = none → Primitive.ofName? d.name = none) → Schema.ofJson? tree.toJson = some tree) := by
  obtain ⟨hroot, hscope⟩ := nodes_of_derive h
  have hread : Schema.ofJson? tree.toJson = some tree.asRead := tree.ofJson?_toJson (plainAttributes_of_derived hroot)
  have hself : Schema.ofJson? tree.toJson = some tree ↔
      ∀ name, .reference name ∈ tree.nodes → Primitive.ofName? name = none := by
    rw [hread, Option.some.injEq]
    exact tree.asRead_eq_self_iff
  refine ⟨hread, hself, ?_, ?_⟩
  · intro cx' root' tree' h'
    obtain ⟨hroot', -⟩ := nodes_of_derive h'
    have hread' : Schema.ofJson? tree'.toJson = some tree'.asRead :=
      tree'.ofJson?_toJson (plainAttributes_of_derived hroot')
    constructor
    · intro heq
      rw [heq, hread'] at hread
      exact (Option.some.inj hread).symm
    · intro heq
      rw [← tree.toJson_asRead, heq, tree'.toJson_asRead]
  · intro hforward hnames
    refine hself.mpr fun name href => ?_
    obtain ⟨id, d, hreach, hget, hn, rfl⟩ := exists_type_of_reference hroot hscope hforward href
    exact ofName?_fullNameOf (hnames hreach hget hn)

theorem readable_linkedList : RuleTable.standard.derive linkedList 0 = .ok linkedListSchema ∧
    Schema.ofJson? linkedListSchema.toJson = some linkedListSchema := by
  refine ⟨derive_linkedList, (derive_readable derive_linkedList).2.1.mpr fun name href => ?_⟩
  obtain rfl : name = "app.Node" := by simpa [linkedListSchema, Schema.nodes, Schema.fieldNodes, Schema.memberNodes] using href
  rfl

/-! ## A record with the name of a primitive type -/

/-- A record with the name `int` and one field. -/
def intRecord (field : TypeId) : Setting :=
  .of ⟨#[
    some { name := "int", shape := .record [{ name := "next", type := { target := field, weak := true } }] },
    some { name := "int", shape := .basic .integer }]⟩ { int32 := true } none

/-- A record that has itself in its field, and one that has integers there, have different schemas with one JSON form. -/
theorem toJson_intRecord : ∃ selfRef ints : Schema, RuleTable.standard.derive (intRecord 0) 0 = .ok selfRef ∧
    RuleTable.standard.derive (intRecord 1) 0 = .ok ints ∧ selfRef ≠ ints ∧ selfRef.toJson = ints.toJson ∧
    Schema.ofJson? selfRef.toJson = some ints := by
  refine ⟨.record ⟨"int", none⟩ none [⟨"next", .reference "int", none, none⟩],
    .record ⟨"int", none⟩ none [⟨"next", .primitive .int, none, none⟩], by cbv, by cbv, by simp, rfl, rfl⟩

end Avro
