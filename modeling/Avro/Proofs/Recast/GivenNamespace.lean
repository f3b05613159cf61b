import Avro.Proofs.Definitions
import Avro.Proofs.Recast.Rules
import Avro.Schema.Document

/-!
# A given namespace holds for all named types

Without a given namespace and without automatic ones, no definition shows a namespace (`derive_bare`). A given namespace
is put before all names of that schema and changes nothing else (`derive_inNamespace`), whatever the origins of the types
and the mode are: types are defined and referred to in the same places, since distinct names stay distinct behind one
prefix.
-/

namespace Avro

/-! ## Schemas in a namespace -/

/-- Definitions without a namespace get the given one, which is put before all full names. -/
def Recast.into (ns : String) : Recast where
  ns n? := some (n?.getD ns)
  fullName n := ns ++ "." ++ n

/-- The schema with the namespace for all definitions that have none, and before the names of references and strings. -/
def Schema.inNamespace (ns : String) (σ : Schema) : Schema := σ.recast (.into ns)

theorem Recast.injective_into (ns : String) : Function.Injective (into ns).fullName := by
  intro a b hab
  have htexts : (ns ++ "." ++ a).toList = (ns ++ "." ++ b).toList := congrArg String.toList hab
  simp only [String.toList_append] at htexts
  exact String.toList_injective (List.append_cancel_left htexts)

/-! ## Keys -/

/-- The keys of the JSON object that a schema is written as; there are none if it is no object. -/
def Schema.keys (σ : Schema) : List String :=
  match σ.toJson with
  | .obj entries => entries.map Prod.fst
  | _ => []

/-- The key for namespaces is there if a definition has one, or if it is among the attributes of a logical type. -/
theorem Schema.namespace_mem_keys {σ : Schema} (h : "namespace" ∈ σ.keys) :
    (∃ heading ns, σ.heading? = some heading ∧ heading.ns = some ns) ∨
      ∃ base logicalType attributes, σ = .logical base logicalType attributes ∧
        "namespace" ∈ attributes.map Prod.fst := by
  cases σ with
  | logical base logicalType attributes =>
    right
    refine ⟨base, logicalType, attributes, rfl, ?_⟩
    simpa [keys, toJson] using h
  | record heading doc fields =>
    left
    obtain ⟨name, ns⟩ := heading
    cases ns with
    | some ns => exact ⟨_, ns, rfl, rfl⟩
    | none => cases doc <;> simp [keys, toJson, Heading.entries, optionalEntry] at h
  | enum heading doc symbols default =>
    left
    obtain ⟨name, ns⟩ := heading
    cases ns with
    | some ns => exact ⟨_, ns, rfl, rfl⟩
    | none => cases doc <;> simp [keys, toJson, Heading.entries, optionalEntry] at h
  | fixed heading size logicalType =>
    left
    obtain ⟨name, ns⟩ := heading
    cases ns with
    | some ns => exact ⟨_, ns, rfl, rfl⟩
    | none => cases logicalType <;> simp [keys, toJson, Heading.entries, optionalEntry] at h
  | _ => simp [keys, toJson] at h

/-! ## Without namespaces -/

variable {g : TypeGraph} {root : TypeId} {o : Options} {ns : String} {d : Descriptor}

/-- The setting without a given namespace and without automatic ones. -/
def Setting.bare (g : TypeGraph) (o : Options) : Setting := .of g { o with namespaceMode := .disabled } none

theorem Setting.nsOf_bare : (Setting.bare g o).nsOf d = none := by
  show (Name.nonempty? d.origin).bind (Name.ofOrigin .disabled) = none
  cases Name.nonempty? d.origin <;> rfl

/-- Where there are no namespaces, no definition has one. -/
theorem ns_of_bare {plain σ : Schema} {heading : Heading} (h : RuleTable.standard.derive (.bare g o) root = .ok plain)
    (hσ : σ ∈ plain.nodes) (hheading : σ.heading? = some heading) : heading.ns = none := by
  obtain ⟨hroot, -⟩ := nodes_of_derive h
  rw [← map_schema_labelled hroot] at hσ
  obtain ⟨x, hx, rfl⟩ := List.mem_map.mp hσ
  obtain ⟨d, -, rfl⟩ := (translates_of_mem hroot hx).heading hheading
  exact Setting.nsOf_bare

/-- The attributes of a logical type are no namespaces. -/
theorem Leaf.namespace_notMem {cx : Setting} {base : Primitive} {logicalType : String}
    {attributes : List (String × Json)} (h : Leaf cx d (.logical base logicalType attributes)) :
    "namespace" ∉ attributes.map Prod.fst := by
  generalize hσ : Schema.logical base logicalType attributes = σ at h
  cases h with
  | @decimal _ t =>
    cases hσ
    obtain ⟨precision, scale⟩ := t
    cases scale <;> simp [Rule.decimalAttributes]
  | refined | json =>
    cases hσ
    exact List.not_mem_nil
  | _ => cases hσ

/-- And no node is written with one. -/
theorem derive_bare {plain : Schema} (h : RuleTable.standard.derive (.bare g o) root = .ok plain) :
    ∀ σ ∈ plain.nodes, "namespace" ∉ σ.keys := by
  intro σ hσ hkey
  rcases Schema.namespace_mem_keys hkey with ⟨heading, ns, hheading, hns⟩ | ⟨base, logicalType, attributes, rfl, hattr⟩
  · cases (ns_of_bare h hσ hheading).symm.trans hns
  · obtain ⟨hroot, -⟩ := nodes_of_derive h
    rw [← map_schema_labelled hroot] at hσ
    obtain ⟨x, hx, hschema⟩ := List.mem_map.mp hσ
    have htrans := translates_of_mem hroot hx
    rw [hschema] at htrans
    cases htrans with
    | leaf _ hl => exact hl.namespace_notMem hattr

/-! ## In the given namespace -/

theorem Setting.recasts_bare (hne : ns ≠ "") (hns : Name.checkNamespace ns = .ok ()) :
    (Setting.bare g o).Recasts (.into ns) id (.of g o (some ns)) := by
  have hnonempty : Name.nonempty? (some ns) = some ns := by simp [Name.nonempty?, hne]
  have hbare (d : Descriptor) : (Setting.bare g o).namespaceOf d = .ok none :=
    Setting.namespaceOf_ok.mpr ⟨Setting.nsOf_bare.symm, by simp [Setting.nsOf_bare]⟩
  refine {
    graph := (TypeGraph.mapDocs_id g).symm, int32 := rfl, inMillis := rfl, useFieldAlias := rfl, float32 := rfl,
    jsonEncoding := rfl, defaultsMandatory := rfl, inj := Recast.injective_into ns, typeDoc := fun _ => rfl,
    fieldDoc := fun _ => rfl, namespaceOf := fun d => ?_, full := fun {d n} hd => ?_ }
  · have hgiven : (Setting.of g o (some ns)).nsOf d = some ns := by
      simp only [Setting.nsOf, Setting.of, Name.chosenNs, hnonempty]
    rw [hbare]
    refine Setting.namespaceOf_ok.mpr ⟨hgiven.symm, fun n hn => ?_⟩
    cases hgiven.symm.trans hn
    exact hns
  · cases (hbare d).symm.trans hd
    show Name.full (some ns) d.name = ns ++ "." ++ Name.full none d.name
    rw [Name.full, hnonempty]
    rfl

/-- With a namespace given, a type has the schema in it that it has without namespaces, or none in both. -/
theorem derive_given (hforward : g.NoForward root) (hne : ns ≠ "") (hns : Name.checkNamespace ns = .ok ()) :
    RuleTable.standard.derive (.of g o (some ns)) root =
      (Recast.into ns).result (Schema.inNamespace ns) (RuleTable.standard.derive (.bare g o) root) := by
  have hgiven : (Setting.of g o (some ns)).givenNs = some ns := by simp [Setting.of, Name.nonempty?, hne]
  refine derive_recasts (Setting.recasts_bare hne hns) (fun hreach hget hd => ?_) (.inr ⟨rfl, ns, hgiven, hns⟩)
  exact absurd hd (hforward hreach hget)

/-- A schema without namespaces that is put into the given one has all its definitions there. -/
theorem ns_of_inNamespace {plain σ : Schema} {heading : Heading}
    (h : RuleTable.standard.derive (.bare g o) root = .ok plain) (hσ : σ ∈ (plain.inNamespace ns).nodes)
    (hheading : σ.heading? = some heading) : heading.ns = some ns := by
  rw [Schema.inNamespace, Schema.nodes_recast] at hσ
  obtain ⟨τ, hτ, rfl⟩ := List.mem_map.mp hσ
  rw [Schema.heading?_recast] at hheading
  obtain ⟨bare, hbare, rfl⟩ := Option.map_eq_some_iff.mp hheading
  show some (bare.ns.getD ns) = some ns
  rw [ns_of_bare h hτ hbare, Option.getD_none]

/-- **A given namespace acts on all named types alike.** With a valid namespace given, whatever the mode is, a type has a
schema if and only if it has one without any namespaces. It is that schema in the namespace: no node of the one is
written with a namespace, and all definitions of the other are in the given one. -/
theorem derive_inNamespace (hforward : g.NoForward root) (hne : ns ≠ "") (hns : Name.checkNamespace ns = .ok ()) :
    ((∃ given, RuleTable.standard.derive (.of g o (some ns)) root = .ok given) ↔
      ∃ plain, RuleTable.standard.derive (.bare g o) root = .ok plain) ∧
    ∀ plain, RuleTable.standard.derive (.bare g o) root = .ok plain →
      RuleTable.standard.derive (.of g o (some ns)) root = .ok (plain.inNamespace ns) ∧
      (∀ σ ∈ plain.nodes, "namespace" ∉ σ.keys) ∧
      ∀ σ ∈ (plain.inNamespace ns).nodes, ∀ heading, σ.heading? = some heading → heading.ns = some ns := by
  have hderive := derive_given (o := o) hforward hne hns
  have hgiven {plain : Schema} (h : RuleTable.standard.derive (.bare g o) root = .ok plain) :
      RuleTable.standard.derive (.of g o (some ns)) root = .ok (plain.inNamespace ns) := by
    rw [hderive, h]
    rfl
  refine ⟨⟨?_, ?_⟩, fun plain h => ⟨hgiven h, derive_bare h, fun σ hσ heading => ns_of_inNamespace h hσ⟩⟩
  · rintro ⟨given, h⟩
    rw [hderive] at h
    cases hplain : RuleTable.standard.derive (.bare g o) root with
    | ok plain => exact ⟨plain, rfl⟩
    | error e =>
      rw [hplain] at h
      cases h
  · rintro ⟨plain, h⟩
    exact ⟨_, hgiven h⟩

/-- The schema of lists without namespaces. -/
def bareListSchema : Schema :=
  .record ⟨"Node", none⟩ (some "A list.") [
    ⟨"value", .primitive .long, some "What it holds.", some (.int 1)⟩,
    ⟨"next", .union [.primitive .null, .reference "Node"], none, some .null⟩]

/-- Lists in a library. -/
theorem inNamespace_linkedList : linkedList.graph.NoForward 0 ∧ "library" ≠ "" ∧
    Name.checkNamespace "library" = .ok () ∧
    RuleTable.standard.derive (.bare linkedList.graph {}) 0 = .ok bareListSchema ∧
    RuleTable.standard.derive (.of linkedList.graph {} (some "library")) 0 =
      .ok (bareListSchema.inNamespace "library") := by
  have hne : "library" ≠ "" := by decide
  have hns : Name.checkNamespace "library" = .ok () := by cbv
  have hplain : RuleTable.standard.derive (.bare linkedList.graph {}) 0 = .ok bareListSchema := by cbv
  exact ⟨linkedList_noForward, hne, hns, hplain, ((derive_inNamespace linkedList_noForward hne hns).2 _ hplain).1⟩

end Avro
