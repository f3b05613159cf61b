import Avro.Proofs.Derivation.Yields
import Mathlib

/-!
# The steps of a field

The derivation of a field checks its name and whether it has a default where it must have one, follows the edge to its
type, and derives that (`field_eq`). The type is spliced if it is a union and the field has a default
(`fieldType_of_union`), and else is derived as it is, with the default encoded for it (`fieldType_of_not_splices`).
-/

namespace Avro

/-- The field has a default, and its type is a union. -/
def Field.Splices (f : Field) (d : Descriptor) : Prop := f.default.isSome = true ∧ ∃ members, d.shape = .union members

/-- The default of a field as the schema shows it, where the type is not spliced. -/
def Parts.shownDefault (parts : Parts) (name : String) (f : Field) : Derive (Option Json) :=
  match f.default with
  | none => pure none
  | some v => some <$> Derive.ofEncode name (parts.encode f.type.target v)

namespace Derive

variable {cx : Setting} {parts : Parts} {f : Field} {d : Descriptor} {name : String} {s s' : Progress}

theorem fieldType_of_not_splices (h : ¬ f.Splices d) : fieldType cx parts name f d =
    parts.schema f.type.target >>= fun σ => (σ, ·) <$> parts.shownDefault name f := by
  unfold fieldType Parts.shownDefault
  split
  · next v members hv hd => exact absurd ⟨by simp [hv], members, hd⟩ h
  · next v hv _ => simp [hv]
  · next hv => simp [hv]

theorem fieldType_of_union {v : Value} {members : List Edge} (hv : f.default = some v) (hd : d.shape = .union members) :
    fieldType cx parts name f d =
      ofFault (cx.graph.flatMembers members) >>= fun flat =>
      ofEncode name (Encode.choose cx.graph parts.encode flat v) >>= fun c =>
      (·, some c.encoded) <$> unionOf parts c.order := by
  simp only [fieldType, hv, hd, map_eq_pure_bind]

theorem field_eq (cx : Setting) (parts : Parts) (f : Field) : field cx parts f =
    ofFault (Name.check (cx.fieldName f)) >>= fun _ =>
    (if cx.options.defaultsMandatory && f.default.isNone then
      throw (.invalidDefault (cx.fieldName f) (.here .noDefault)) else pure ()) >>= fun _ =>
    ofFault (cx.graph.follow f.type) >>= fun d =>
    (fun p => ⟨cx.fieldName f, p.1, cx.fieldDoc f.doc, p.2⟩) <$> fieldType cx parts (cx.fieldName f) f d := by
  unfold field
  simp only [map_eq_pure_bind]
  congr 1
  funext _
  split <;> rfl

/-- A default is encoded without any progress. -/
theorem yields_shownDefault {j? : Option Json} : (parts.shownDefault name f).Yields s j? s' ↔ s' = s ∧
    (f.default = none → j? = none) ∧
      ∀ v, f.default = some v → ∃ j, j? = some j ∧ (parts.encode f.type.target v).outcome = some (.ok j) := by
  unfold Parts.shownDefault
  cases hv : f.default with
  | none => simp [and_comm]
  | some v =>
    simp only [yields_map, yields_ofEncode, Option.some.injEq, forall_eq', reduceCtorEq, false_imp_iff, true_and]
    constructor
    · rintro ⟨j, ⟨hj, rfl⟩, rfl⟩
      exact ⟨rfl, j, rfl, hj⟩
    · rintro ⟨rfl, j, rfl, hj⟩
      exact ⟨j, ⟨hj, rfl⟩, rfl⟩

end Derive
end Avro
