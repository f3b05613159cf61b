import Avro.Proofs.Derivation.Choice
import Avro.Proofs.Derivation.Runs

/-!
# The nodes of a schema and the types they stand for

`Schema.nodes` lists the nodes of a schema in the order of its text, a definition before what is inside it. The types
of a graph walk along: `Setting.labels` gives each node the type that it stands for, and the default that is declared
there if the node is the type of a field, since the default decides on the order of a union. Both are walks down from a
node to its parts (`nodes_eq`, `labelled_eq`), so what passes from nodes to their parts holds of all of them
(`labelled_induction`).
-/

namespace Avro

namespace Schema

mutual

/-- The nodes of a schema in the order of its text, each before its parts. -/
def nodes : Schema → List Schema
  | record heading doc fields => record heading doc fields :: fieldNodes fields
  | map values => map values :: nodes values
  | array items => array items :: nodes items
  | union members => union members :: memberNodes members
  | σ => [σ]

def memberNodes : List Schema → List Schema
  | [] => []
  | σ :: σs => nodes σ ++ memberNodes σs

def fieldNodes : List (SchemaField Schema) → List Schema
  | [] => []
  | ⟨_, type, _, _⟩ :: ss => nodes type ++ fieldNodes ss

end

/-- The full name that a definition defines. -/
def definedName? : Schema → Option String
  | record heading _ _ | enum heading _ _ _ | fixed heading _ _ => some heading.fullName
  | _ => none

end Schema

/-! ## Labels -/

/-- A node of a schema with the type that it stands for. -/
structure Node where
  type : TypeId
  /-- The default of the field, if the type is that of a field with a default. -/
  default : Option Value
  schema : Schema

namespace TypeGraph

/-- The fields of a type, which is a record. -/
def fieldsOf (g : TypeGraph) (id : TypeId) : List Field := ((g.get? id).bind Descriptor.fields?).getD []

/-- The type of the parts of a collection. -/
def partOf? (g : TypeGraph) (id : TypeId) : Option TypeId :=
  match (g.get? id).map Descriptor.shape with
  | some (.sequence element) => some element.target
  | some (.map _ value) => some value.target
  | _ => none

/-- The members of a type, which is a union. -/
def membersOf (g : TypeGraph) (id : TypeId) : List TypeId :=
  match (g.get? id).map Descriptor.shape with
  | some (.union members) => (g.flatMembers members).toOption.getD []
  | _ => []

end TypeGraph

namespace Setting

/-- The members of a union as a schema shows them where a default is declared. -/
def orderOf (cx : Setting) (id : TypeId) : Option Value → List TypeId
  | none => cx.graph.membersOf id
  | some v =>
    match (Encode.choose cx.graph (RuleTable.standard.encode cx) (cx.graph.membersOf id) v).outcome with
    | some (.ok c) => c.order
    | _ => []

mutual

/-- The nodes of a schema in the order of its text, each with the type that it stands for. -/
def labels (cx : Setting) : Schema → TypeId → Option Value → List Node
  | .record heading doc fields, id, default =>
    ⟨id, default, .record heading doc fields⟩ :: fieldLabels cx fields (cx.graph.fieldsOf id)
  | .map values, id, default =>
    ⟨id, default, .map values⟩ ::
      match cx.graph.partOf? id with
      | some part => labels cx values part none
      | none => []
  | .array items, id, default =>
    ⟨id, default, .array items⟩ ::
      match cx.graph.partOf? id with
      | some part => labels cx items part none
      | none => []
  | .union members, id, default => ⟨id, default, .union members⟩ :: memberLabels cx members (cx.orderOf id default)
  | σ, id, default => [⟨id, default, σ⟩]

def memberLabels (cx : Setting) : List Schema → List TypeId → List Node
  | σ :: σs, id :: ids => labels cx σ id none ++ memberLabels cx σs ids
  | _, _ => []

def fieldLabels (cx : Setting) : List (SchemaField Schema) → List Field → List Node
  | ⟨_, type, _, _⟩ :: ss, f :: fs => labels cx type f.type.target f.default ++ fieldLabels cx ss fs
  | _, _ => []

end

/-- The nodes below a node, it included. -/
def labelled (cx : Setting) (x : Node) : List Node := cx.labels x.schema x.type x.default

/-- The parts of a node, each with the type that it stands for. -/
def kids (cx : Setting) : Node → List Node
  | ⟨id, _, .record _ _ fields⟩ =>
    List.zipWith (fun s f => ⟨f.type.target, f.default, s.type⟩) fields (cx.graph.fieldsOf id)
  | ⟨id, _, .map σ⟩ | ⟨id, _, .array σ⟩ => (cx.graph.partOf? id).toList.map fun part => ⟨part, none, σ⟩
  | ⟨id, default, .union σs⟩ => List.zipWith (fun σ m => ⟨m, none, σ⟩) σs (cx.orderOf id default)
  | _ => []

end Setting

/-- The schemas right inside a schema. -/
def Schema.parts : Schema → List Schema
  | record _ _ fields => fields.map SchemaField.type
  | map σ | array σ => [σ]
  | union σs => σs
  | _ => []

/-! ## Walks -/

namespace Schema

theorem memberNodes_eq : ∀ σs : List Schema, memberNodes σs = σs.flatMap nodes
  | [] => rfl
  | σ :: σs => by simp [memberNodes, memberNodes_eq σs]

theorem fieldNodes_eq : ∀ ss : List (SchemaField Schema), fieldNodes ss = (ss.map SchemaField.type).flatMap nodes
  | [] => rfl
  | ⟨_, type, _, _⟩ :: ss => by simp [fieldNodes, fieldNodes_eq ss]

theorem nodes_eq (σ : Schema) : σ.nodes = σ :: σ.parts.flatMap nodes := by
  cases σ <;> simp [nodes, parts, memberNodes_eq, fieldNodes_eq]

theorem sizeOf_parts {σ τ : Schema} (h : τ ∈ σ.parts) : sizeOf τ < sizeOf σ := by
  cases σ with
  | record heading doc fields =>
    obtain ⟨s, hs, rfl⟩ := List.mem_map.mp h
    have := List.sizeOf_lt_of_mem hs
    obtain ⟨name, type, fdoc, default⟩ := s
    simp only [record.sizeOf_spec, SchemaField.mk.sizeOf_spec] at this ⊢
    omega
  | union σs =>
    have := List.sizeOf_lt_of_mem (show τ ∈ σs from h)
    simp only [union.sizeOf_spec]
    omega
  | map σ | array σ =>
    obtain rfl := List.mem_singleton.mp h
    simp
  | _ => cases h

end Schema

namespace Setting

variable {cx : Setting}

theorem memberLabels_eq : ∀ (σs : List Schema) (ids : List TypeId),
    cx.memberLabels σs ids = (List.zipWith (fun σ m => (⟨m, none, σ⟩ : Node)) σs ids).flatMap cx.labelled
  | [], _ => by simp [memberLabels]
  | _ :: _, [] => by simp [memberLabels]
  | σ :: σs, id :: ids => by simp [memberLabels, memberLabels_eq σs ids, labelled]

theorem fieldLabels_eq : ∀ (ss : List (SchemaField Schema)) (fs : List Field), cx.fieldLabels ss fs =
    (List.zipWith (fun s f => (⟨f.type.target, f.default, s.type⟩ : Node)) ss fs).flatMap cx.labelled
  | [], _ => by simp [fieldLabels]
  | _ :: _, [] => by simp [fieldLabels]
  | ⟨_, type, _, _⟩ :: ss, f :: fs => by simp [fieldLabels, fieldLabels_eq ss fs, labelled]

/-- The nodes below a node are it and those below its parts. -/
theorem labelled_eq (x : Node) : cx.labelled x = x :: (cx.kids x).flatMap cx.labelled := by
  obtain ⟨id, default, σ⟩ := x
  cases σ with
  | record heading doc fields => simp [labelled, labels, kids, fieldLabels_eq]
  | union σs => simp [labelled, labels, kids, memberLabels_eq]
  | map σ | array σ => cases hp : cx.graph.partOf? id <;> simp [labelled, labels, kids, hp]
  | _ => simp [labelled, labels, kids]

theorem mem_labelled_self (x : Node) : x ∈ cx.labelled x := by
  rw [labelled_eq]
  exact List.mem_cons_self

/-- The schema of a part is right inside the schema of the node. -/
theorem schema_mem_parts {x k : Node} (h : k ∈ cx.kids x) : k.schema ∈ x.schema.parts := by
  obtain ⟨id, default, σ⟩ := x
  cases σ with
  | record heading doc fields =>
    obtain ⟨i, hi, rfl⟩ := List.mem_iff_getElem.mp h
    have hlt : i < fields.length := by
      simp only [kids, List.length_zipWith] at hi
      omega
    simp only [kids, List.getElem_zipWith]
    exact List.mem_map_of_mem (List.getElem_mem hlt)
  | union σs =>
    obtain ⟨i, hi, rfl⟩ := List.mem_iff_getElem.mp h
    simp [kids, Schema.parts]
  | map σ | array σ =>
    obtain ⟨part, -, rfl⟩ := List.mem_map.mp h
    simp [Schema.parts]
  | _ => cases h

/-- What passes from nodes to their parts holds of all nodes below one that it holds of. -/
theorem labelled_induction {Q : Node → Prop} (hstep : ∀ x, Q x → ∀ k ∈ cx.kids x, Q k) (r : Node) (hr : Q r) :
    ∀ x ∈ cx.labelled r, Q x := by
  intro x hx
  rw [labelled_eq] at hx
  rcases List.mem_cons.mp hx with rfl | hx
  · exact hr
  · obtain ⟨k, hk, hx⟩ := List.mem_flatMap.mp hx
    exact labelled_induction hstep k (hstep r hr k hk) x hx
termination_by sizeOf r.schema
decreasing_by exact Schema.sizeOf_parts (schema_mem_parts hk)

/-- The parts of a node below another are below it too. -/
theorem kids_subset_labelled {r x : Node} (hx : x ∈ cx.labelled r) : cx.kids x ⊆ cx.labelled r := by
  have hall : ∀ y ∈ cx.labelled r, cx.labelled y ⊆ cx.labelled r := by
    refine labelled_induction (Q := fun y => cx.labelled y ⊆ cx.labelled r) (fun y hy k hk z hz => ?_) r fun _ h => h
    apply hy
    rw [labelled_eq y]
    exact List.mem_cons_of_mem _ (List.mem_flatMap.mpr ⟨k, hk, hz⟩)
  intro k hk
  apply hall x hx
  rw [labelled_eq x]
  exact List.mem_cons_of_mem _ (List.mem_flatMap.mpr ⟨k, hk, mem_labelled_self k⟩)

end Setting
end Avro
