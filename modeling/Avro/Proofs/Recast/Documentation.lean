import Avro.Proofs.Recast.Rules

/-!
# Documentation is left out and nothing else

A schema without documentation is the schema with it, where each documentation is removed (`derive_withoutDocs`). It does
not matter whether the options leave documentation out or nothing is documented, and errors are the same: what is
documented decides on no name, no reference, no order of a union and no default.
-/

namespace Avro

/-- The schema with all documentation of records, enumerations and fields removed. -/
def Schema.withoutDocs (σ : Schema) : Schema := σ.recast { doc := fun _ => none }

variable {g : TypeGraph} {root : TypeId} {o : Options} {ns : Option String}

/-- What is derived is the schema without documentation where only documentation is left out. -/
theorem derive_eq_withoutDocs {m : Option String → Option String} {cx cx' : Setting}
    (h : cx.Recasts { doc := fun _ => none } m cx') (hns : cx'.givenNs = cx.givenNs) :
    RuleTable.standard.derive cx' root = (RuleTable.standard.derive cx root).map Schema.withoutDocs := by
  rw [derive_recasts h (fun _ _ _ => rfl) (.inl hns)]
  cases RuleTable.standard.derive cx root with
  | ok tree => rfl
  | error e => exact congrArg Except.error (e.recast_of_fullName rfl)

/-- Namespaces and full names are the same where they depend on the same. -/
theorem Setting.namespaceOf_map_id (cx : Setting) (d : Descriptor) : cx.namespaceOf d = (cx.namespaceOf d).map id := by
  cases cx.namespaceOf d <;> rfl

/-- The options leave out documentation. -/
theorem Setting.recasts_noDoc : (Setting.of g { o with noDoc := false } ns).Recasts { doc := fun _ => none } id
    (.of g { o with noDoc := true } ns) where
  graph := (TypeGraph.mapDocs_id g).symm
  int32 := rfl
  inMillis := rfl
  useFieldAlias := rfl
  float32 := rfl
  jsonEncoding := rfl
  defaultsMandatory := rfl
  namespaceOf := Setting.namespaceOf_map_id _
  full _ := rfl
  inj := Function.injective_id
  typeDoc _ := rfl
  fieldDoc _ := rfl

/-- Nothing is documented. -/
theorem Setting.recasts_undocumented : (Setting.of g o ns).Recasts { doc := fun _ => none } (fun _ => none)
    (.of g.undocumented o ns) where
  graph := rfl
  int32 := rfl
  inMillis := rfl
  useFieldAlias := rfl
  float32 := rfl
  jsonEncoding := rfl
  defaultsMandatory := rfl
  namespaceOf := Setting.namespaceOf_map_id _
  full _ := rfl
  inj := Function.injective_id
  typeDoc _ := ite_self none
  fieldDoc _ := ite_self none

/-- **Leaving out documentation removes each documentation and nothing else.** With documentation left out, a type has
the schema that it has with it, where all documentation is removed, or the same error. The same holds if nothing in the
graph is documented, so documentation has no influence on anything else, however it is written. -/
theorem derive_withoutDocs (g : TypeGraph) (root : TypeId) (o : Options) (ns : Option String) :
    RuleTable.standard.derive (.of g { o with noDoc := true } ns) root =
      (RuleTable.standard.derive (.of g { o with noDoc := false } ns) root).map Schema.withoutDocs ∧
    RuleTable.standard.derive (.of g.undocumented o ns) root =
      (RuleTable.standard.derive (.of g o ns) root).map Schema.withoutDocs :=
  ⟨derive_eq_withoutDocs Setting.recasts_noDoc rfl, derive_eq_withoutDocs Setting.recasts_undocumented rfl⟩

end Avro
