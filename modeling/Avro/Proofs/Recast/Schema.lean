import Avro.Proofs.Derivation.Step
import Avro.Proofs.Tree.WellFormed

/-!
# Schemas with other names and documentation

A `Recast` says what a schema shows in place of each namespace, full name and documentation. `Schema.recast` takes it
all through a schema and keeps everything else: the nodes stay in their places (`nodes_recast`), so definitions stay
definitions, references stay references, and unions, symbols and defaults are what they were. Errors that name a type
by its full name are recast too.
-/

namespace Avro

/-- What stands in place of each namespace, each full name and each documentation. -/
structure Recast where
  ns : Option String → Option String := id
  fullName : String → String := id
  doc : Option String → Option String := id

/-! ## What is recast -/

section Definitions

variable (r : Recast)

/-- The heading in the other namespace. -/
def Heading.recast (h : Heading) : Heading := { h with ns := r.ns h.ns }

/-- The beginning of a definition with the other namespace and documentation. -/
def Header.recast (h : Header) : Header := ⟨h.toHeading.recast r, r.doc h.doc⟩

mutual

/-- The schema with the other namespaces, full names and documentation. -/
def Schema.recast : Schema → Schema
  | .primitive p => .primitive p
  | .logical base logicalType attributes => .logical base logicalType attributes
  | .namedString fullName => .namedString (r.fullName fullName)
  | .record heading doc fields => .record (heading.recast r) (r.doc doc) (Schema.recastFields fields)
  | .enum heading doc symbols default => .enum (heading.recast r) (r.doc doc) symbols default
  | .fixed heading size logicalType => .fixed (heading.recast r) size logicalType
  | .map values => .map values.recast
  | .array items => .array items.recast
  | .union members => .union (Schema.recastMembers members)
  | .reference fullName => .reference (r.fullName fullName)

def Schema.recastMembers : List Schema → List Schema
  | [] => []
  | σ :: σs => σ.recast :: Schema.recastMembers σs

def Schema.recastFields : List (SchemaField Schema) → List (SchemaField Schema)
  | [] => []
  | ⟨name, type, doc, default⟩ :: ss => ⟨name, type.recast, r.doc doc, default⟩ :: Schema.recastFields ss

end

/-- The field with the other names and documentation in its type, and its documentation too. -/
def SchemaField.recast (s : SchemaField Schema) : SchemaField Schema :=
  { s with type := s.type.recast r, doc := r.doc s.doc }

/-- The fault with the other full names. -/
def TypeFault.recast : TypeFault → TypeFault
  | .name fullName .taken => .name (r.fullName fullName) .taken
  | .name fullName .noSymbols => .name (r.fullName fullName) .noSymbols
  | .name field (.repeatedField record) => .name field (.repeatedField (r.fullName record))
  | f => f

/-- The error with the other full names. -/
def SchemaError.recast : SchemaError → SchemaError
  | .type f => .type (f.recast r)
  | e => e

/-- The progress with the other full names. -/
def Progress.recast (s : Progress) : Progress :=
  { s with registry := ⟨s.registry.entries.map fun e => (e.1, r.fullName e.2)⟩ }

/-- The claim with the other full name. -/
def Claim.recast : Claim → Claim
  | .fresh => .fresh
  | .known fullName => .known (r.fullName fullName)

end Definitions

/-! ## Parts and nodes -/

variable {r : Recast}

namespace Schema

theorem recastMembers_eq : ∀ σs : List Schema, recastMembers r σs = σs.map (recast r)
  | [] => rfl
  | σ :: σs => by rw [recastMembers, recastMembers_eq σs, List.map_cons]

theorem recastFields_eq : ∀ ss : List (SchemaField Schema), recastFields r ss = ss.map (SchemaField.recast r)
  | [] => rfl
  | ⟨_, _, _, _⟩ :: ss => by
    rw [recastFields, recastFields_eq ss, List.map_cons]
    rfl

theorem parts_recast (σ : Schema) : (σ.recast r).parts = σ.parts.map (recast r) := by
  cases σ with
  | record heading doc fields =>
    simp only [recast, parts, recastFields_eq, List.map_map]
    rfl
  | union σs => simp only [recast, parts, recastMembers_eq]
  | _ => simp only [recast, parts, List.map_cons, List.map_nil]

/-- **The nodes stay in their places.** -/
theorem nodes_recast (σ : Schema) : (σ.recast r).nodes = σ.nodes.map (recast r) := by
  rw [nodes_eq, nodes_eq σ, parts_recast, List.map_cons, List.map_flatMap, List.flatMap_map]
  congr 1
  apply List.flatMap_congr
  intro τ hτ
  exact nodes_recast τ
termination_by sizeOf σ
decreasing_by exact sizeOf_parts hτ

/-- A definition has the recast heading, and nothing else becomes one. -/
theorem heading?_recast (σ : Schema) : (σ.recast r).heading? = σ.heading?.map (Heading.recast r) := by
  cases σ <;> simp only [recast, heading?, Option.map_some, Option.map_none]

end Schema

/-! ## Errors that stay -/

/-- Errors tell what they told if full names stay. -/
theorem SchemaError.recast_of_fullName (hr : r.fullName = id) (e : SchemaError) : e.recast r = e := by
  have hfault : ∀ f : TypeFault, f.recast r = f := by
    intro f
    unfold TypeFault.recast
    split <;> simp only [hr, id]
  cases e with
  | type f => exact congrArg _ (hfault f)
  | _ => rfl

/-- The fault does not tell a full name. -/
def TypeFault.Nameless (f : TypeFault) : Prop := ∀ r : Recast, f.recast r = f

variable {f : TypeFault}

theorem Name.nameless_of_check {name : String} (h : Name.check name = .error f) : f.Nameless := by
  unfold Name.check at h
  split at h <;> cases h
  exact fun _ => rfl

theorem Name.nameless_of_checkNamespace {ns : String} (h : Name.checkNamespace ns = .error f) : f.Nameless := by
  unfold Name.checkNamespace at h
  split at h
  · cases h
  · split at h <;> cases h
    exact fun _ => rfl

theorem Setting.nameless_of_namespaceOf {cx : Setting} {d : Descriptor} (h : cx.namespaceOf d = .error f) :
    f.Nameless := by
  unfold Setting.namespaceOf at h
  split at h
  · cases h
  · split at h <;> cases h
    exact Name.nameless_of_checkNamespace (by assumption)

namespace TypeGraph

variable {g : TypeGraph}

theorem nameless_of_follow {e : Edge} (h : g.follow e = .error f) : f.Nameless := by
  unfold follow at h
  split at h <;> cases h
  exact fun _ => rfl

theorem nameless_of_spliceInto {active out : List TypeId} {es : List Edge}
    (h : g.spliceInto active out es = .error f) : f.Nameless := by
  fun_induction spliceInto g active out es with
  | case1 => cases h
  | case2 | case3 =>
    cases h
    exact fun _ => rfl
  | case4 _ _ _ _ _ _ _ _ _ _ _ _ ih => exact ih h
  | case5 _ _ _ _ _ _ _ _ _ _ hsplice ih =>
    cases h
    exact ih hsplice
  | case6 _ _ _ _ _ _ _ ih => exact ih h

end TypeGraph

namespace Rule

theorem nameless_of_distinctSymbols : ∀ {symbols known : List String},
    distinctSymbols known symbols = .error f → f.Nameless
  | [], _, h => by cases h
  | s :: ss, known, h => by
    unfold distinctSymbols at h
    split at h
    · cases h
      exact Name.nameless_of_check (by assumption)
    · exact nameless_of_distinctSymbols h

theorem nameless_of_decimalType {d : Descriptor} (h : decimalType d = .error f) : f.Nameless := by
  unfold decimalType at h
  split at h
  · split at h <;> cases h
    exact fun _ => rfl
  · cases h
    exact fun _ => rfl

end Rule

theorem RuleTable.nameless_of_find {t : RuleTable} {g : TypeGraph} {d : Descriptor} (h : t.find g d = .error f) :
    f.Nameless := by
  unfold find at h
  split at h <;> cases h
  exact fun _ => rfl

end Avro
