import Avro.Proofs.Recast.Docs
import Avro.Proofs.Tree.Labels

/-!
# Mandatory defaults only filter

Where each field must have a default, a derivation refuses a field without one before it looks at the type of the field.
The check stands in the middle of the derivation, but it does not change what is derived otherwise: a run that it lets
through is a run without it to a schema in which all fields have defaults, and the reverse (`runs_mandatory`). This is
shown step by step, since a schema has its fields where the types have theirs (`step_mandatory`).
-/

namespace Avro

/-! ## Schemas with all defaults -/

/-- Each field of each record in the schema has a default. -/
def Schema.AllDefaults (σ : Schema) : Prop :=
  ∀ heading doc fields, .record heading doc fields ∈ σ.nodes → ∀ f ∈ fields, f.default.isSome = true

/-- All fields have defaults if those of the record itself have, and all in its parts. -/
theorem Schema.allDefaults_iff {σ : Schema} : σ.AllDefaults ↔
    (∀ heading doc fields, σ = .record heading doc fields → ∀ f ∈ fields, f.default.isSome = true) ∧
      ∀ τ ∈ σ.parts, τ.AllDefaults := by
  unfold AllDefaults
  rw [nodes_eq]
  constructor
  · intro h
    refine ⟨fun _ _ _ hσ => h _ _ _ (List.mem_cons.mpr (.inl hσ.symm)), fun τ hτ heading doc fields hrecord => ?_⟩
    exact h heading doc fields (List.mem_cons_of_mem _ (List.mem_flatMap.mpr ⟨τ, hτ, hrecord⟩))
  · rintro ⟨hself, hparts⟩ heading doc fields hrecord
    rcases List.mem_cons.mp hrecord with hσ | hrecord
    · exact hself _ _ _ hσ.symm
    · obtain ⟨τ, hτ, hrecord⟩ := List.mem_flatMap.mp hrecord
      exact hparts τ hτ _ _ _ hrecord

namespace Schema

/-- A schema that is no record has all defaults if its parts have. -/
theorem allDefaults_of_parts {σ : Schema} (hσ : ∀ heading doc fields, σ ≠ .record heading doc fields) :
    σ.AllDefaults ↔ ∀ τ ∈ σ.parts, τ.AllDefaults := by
  rw [allDefaults_iff]
  exact and_iff_right fun _ _ _ h => absurd h (hσ _ _ _)

theorem allDefaults_union {σs : List Schema} : (union σs).AllDefaults ↔ ∀ σ ∈ σs, σ.AllDefaults :=
  allDefaults_of_parts (by simp)

theorem allDefaults_array {σ : Schema} : (array σ).AllDefaults ↔ σ.AllDefaults := by
  rw [allDefaults_of_parts (by simp)]
  simp [parts]

theorem allDefaults_map {σ : Schema} : (map σ).AllDefaults ↔ σ.AllDefaults := by
  rw [allDefaults_of_parts (by simp)]
  simp [parts]

theorem allDefaults_record {heading : Heading} {doc : Option String} {ss : List (SchemaField Schema)} :
    (record heading doc ss).AllDefaults ↔ ∀ s ∈ ss, s.default.isSome = true ∧ s.type.AllDefaults := by
  rw [allDefaults_iff]
  simp only [parts, List.mem_map, forall_exists_index, and_imp, forall_apply_eq_imp_iff₂]
  constructor
  · exact fun h s hs => ⟨h.1 _ _ _ rfl s hs, h.2 s hs⟩
  · refine fun h => ⟨fun _ _ _ hrecord s hs => ?_, fun s hs => (h s hs).2⟩
    cases hrecord
    exact (h s hs).1

end Schema

/-- A leaf has no fields. -/
theorem Leaf.allDefaults {cx : Setting} {d : Descriptor} {σ : Schema} (h : Leaf cx d σ) : σ.AllDefaults := by
  rw [Schema.allDefaults_of_parts (by cases h <;> simp [Schema.refined])]
  cases h <;> simp [Schema.parts, Schema.refined]

/-! ## Settings -/

/-- The setting where each field must have a default. -/
def Setting.mandatory (cx : Setting) : Setting := { cx with options := { cx.options with defaultsMandatory := true } }

/-- The setting where no field must have a default. -/
def Setting.lenient (cx : Setting) : Setting := { cx with options := { cx.options with defaultsMandatory := false } }

variable {cx : Setting} {d : Descriptor} {s s' : Progress} {id : TypeId} {σ : Schema}

theorem Setting.encode_mandatory : RuleTable.standard.encode cx.mandatory = RuleTable.standard.encode cx.lenient := by
  have hlike : cx.lenient.EncodesLike (fun doc => doc) cx.mandatory := ⟨(TypeGraph.mapDocs_id _).symm, rfl, rfl, rfl⟩
  exact hlike.encode_eq

theorem Setting.validHeading_mandatory : cx.mandatory.ValidHeading d ↔ cx.lenient.ValidHeading d :=
  ⟨fun h => ⟨h.name, h.ns⟩, fun h => ⟨h.name, h.ns⟩⟩

theorem leaf_mandatory : Leaf cx.mandatory d σ ↔ Leaf cx.lenient d σ := by
  rw [leaf_iff, leaf_iff]
  cases d.shape with
  | namedString => exact and_congr_left fun _ => Setting.validHeading_mandatory
  | _ => exact Iff.rfl

/-! ## Steps -/

/-- What holds of each result along two lists is one condition beside the rest. -/
theorem threaded_and {α β : Type} {R Q : Deriving α β} {P : β → Prop}
    (h : ∀ s a b s', R s a b s' ↔ Q s a b s' ∧ P b) {as : List α} {bs : List β} :
    Threaded R s as bs s' ↔ Threaded Q s as bs s' ∧ ∀ b ∈ bs, P b := by
  constructor
  · intro hR
    induction hR with
    | nil s => exact ⟨.nil s, by simp⟩
    | cons hab _ ih =>
      obtain ⟨hQ, hP⟩ := (h _ _ _ _).mp hab
      exact ⟨.cons hQ ih.1, by simpa using ⟨hP, ih.2⟩⟩
  · rintro ⟨hQ, hP⟩
    induction hQ with
    | nil s => exact .nil s
    | cons hab _ ih =>
      simp only [List.mem_cons, forall_eq_or_imp] at hP
      exact .cons ((h _ _ _ _).mpr ⟨hab, hP.1⟩) (ih hP.2)

section Steps

variable {R Q : Deriving TypeId Schema} (h : ∀ s id σ s', R s id σ s' ↔ Q s id σ s' ∧ σ.AllDefaults)
include h

theorem fieldType_mandatory {f : Field} {j? : Option Json} : FieldType cx.mandatory R s f d σ j? s' ↔
    FieldType cx.lenient Q s f d σ j? s' ∧ σ.AllDefaults := by
  constructor
  · intro hR
    cases hR with
    | bare hd hσ =>
      obtain ⟨hQ, hdefaults⟩ := (h _ _ _ _).mp hσ
      exact ⟨.bare hd hQ, hdefaults⟩
    | plain hd hu hσ he =>
      obtain ⟨hQ, hdefaults⟩ := (h _ _ _ _).mp hσ
      rw [Setting.encode_mandatory] at he
      exact ⟨.plain hd hu hQ he, hdefaults⟩
    | chosen hd hu hflat hc hσs =>
      obtain ⟨hQ, hdefaults⟩ := (threaded_and h).mp hσs
      rw [Setting.encode_mandatory] at hc
      exact ⟨.chosen hd hu hflat hc hQ, Schema.allDefaults_union.mpr hdefaults⟩
  · rintro ⟨hQ, hdefaults⟩
    cases hQ with
    | bare hd hσ => exact .bare hd ((h _ _ _ _).mpr ⟨hσ, hdefaults⟩)
    | plain hd hu hσ he =>
      rw [← Setting.encode_mandatory] at he
      exact .plain hd hu ((h _ _ _ _).mpr ⟨hσ, hdefaults⟩) he
    | chosen hd hu hflat hc hσs =>
      rw [← Setting.encode_mandatory] at hc
      exact .chosen hd hu hflat hc ((threaded_and h).mpr ⟨hσs, Schema.allDefaults_union.mp hdefaults⟩)

omit h in
/-- A field shows a default if and only if it declares one. -/
theorem FieldType.isSome_eq {f : Field} {j? : Option Json} (hσ : FieldType cx R s f d σ j? s') :
    j?.isSome = f.default.isSome := by
  cases hσ with
  | bare hd | plain hd | chosen hd => rw [hd]; rfl

/-- The check of a field asks for the default that the schema shows. -/
theorem fieldStep_mandatory {f : Field} {sf : SchemaField Schema} : FieldStep cx.mandatory R s f sf s' ↔
    FieldStep cx.lenient Q s f sf s' ∧ sf.default.isSome = true ∧ sf.type.AllDefaults := by
  constructor
  · rintro ⟨hname, hmandatory, hget, htype⟩
    obtain ⟨hQ, hdefaults⟩ := (fieldType_mandatory h).mp htype
    exact ⟨.mk hname (fun hlenient => by cases hlenient) hget hQ, htype.isSome_eq.trans (hmandatory rfl), hdefaults⟩
  · rintro ⟨⟨hname, -, hget, htype⟩, hsome, hdefaults⟩
    exact .mk hname (fun _ => htype.isSome_eq.symm.trans hsome) hget ((fieldType_mandatory h).mpr ⟨htype, hdefaults⟩)

theorem body_mandatory : Body cx.mandatory R s d σ s' ↔ Body cx.lenient Q s d σ s' ∧ σ.AllDefaults := by
  have hfield (s : Progress) (f : Field) (sf : SchemaField Schema) (s' : Progress) : FieldStep cx.mandatory R s f sf s' ↔
      FieldStep cx.lenient Q s f sf s' ∧ sf.default.isSome = true ∧ sf.type.AllDefaults := fieldStep_mandatory h
  constructor
  · intro hR
    cases hR with
    | enum hd hs => exact ⟨.enum hd hs, (Schema.allDefaults_of_parts (by simp)).mpr (by simp [Schema.parts])⟩
    | duration hd => exact ⟨.duration hd, (Schema.allDefaults_of_parts (by simp)).mpr (by simp [Schema.parts])⟩
    | record hd hfs hnodup =>
      obtain ⟨hQ, hdefaults⟩ := (threaded_and hfield).mp hfs
      exact ⟨.record hd hQ hnodup, Schema.allDefaults_record.mpr hdefaults⟩
  · rintro ⟨hQ, hdefaults⟩
    cases hQ with
    | enum hd hs => exact .enum hd hs
    | duration hd => exact .duration hd
    | record hd hfs hnodup =>
      have hR := (threaded_and hfield).mpr ⟨hfs, Schema.allDefaults_record.mp hdefaults⟩
      exact .record hd hR hnodup

theorem parted_mandatory : Parted cx.mandatory R s d σ s' ↔ Parted cx.lenient Q s d σ s' ∧ σ.AllDefaults := by
  constructor
  · intro hR
    cases hR with
    | union hd hflat hσs =>
      obtain ⟨hQ, hdefaults⟩ := (threaded_and h).mp hσs
      exact ⟨.union hd hflat hQ, Schema.allDefaults_union.mpr hdefaults⟩
    | sequence hd hj hσ =>
      obtain ⟨hQ, hdefaults⟩ := (h _ _ _ _).mp hσ
      exact ⟨.sequence hd hj hQ, Schema.allDefaults_array.mpr hdefaults⟩
    | map hd hj hk hstr hσ =>
      obtain ⟨hQ, hdefaults⟩ := (h _ _ _ _).mp hσ
      exact ⟨.map hd hj hk hstr hQ, Schema.allDefaults_map.mpr hdefaults⟩
  · rintro ⟨hQ, hdefaults⟩
    cases hQ with
    | union hd hflat hσs =>
      exact .union hd hflat ((threaded_and h).mpr ⟨hσs, Schema.allDefaults_union.mp hdefaults⟩)
    | sequence hd hj hσ => exact .sequence hd hj ((h _ _ _ _).mpr ⟨hσ, Schema.allDefaults_array.mp hdefaults⟩)
    | map hd hj hk hstr hσ => exact .map hd hj hk hstr ((h _ _ _ _).mpr ⟨hσ, Schema.allDefaults_map.mp hdefaults⟩)

/-- A step under the check is a step without it to a schema with all defaults, if this is so of its parts. -/
theorem step_mandatory : Step cx.mandatory R s id σ s' ↔ Step cx.lenient Q s id σ s' ∧ σ.AllDefaults := by
  constructor
  · intro hR
    cases hR with
    | leaf hget hl => exact ⟨.leaf hget (leaf_mandatory.mp hl), hl.allDefaults⟩
    | reference hget hn hv hr =>
      refine ⟨.reference hget hn (Setting.validHeading_mandatory.mp hv) hr, ?_⟩
      exact (Schema.allDefaults_of_parts (by simp)).mpr (by simp [Schema.parts])
    | definition hget hn hv hr ho hb =>
      obtain ⟨hQ, hdefaults⟩ := (body_mandatory h).mp hb
      exact ⟨.definition hget hn (Setting.validHeading_mandatory.mp hv) hr ho hQ, hdefaults⟩
    | composite hget hp hb =>
      obtain ⟨hQ, hdefaults⟩ := (parted_mandatory h).mp hb
      exact ⟨.composite hget hp hQ, hdefaults⟩
  · rintro ⟨hQ, hdefaults⟩
    cases hQ with
    | leaf hget hl => exact .leaf hget (leaf_mandatory.mpr hl)
    | reference hget hn hv hr => exact .reference hget hn (Setting.validHeading_mandatory.mpr hv) hr
    | definition hget hn hv hr ho hb =>
      exact .definition hget hn (Setting.validHeading_mandatory.mpr hv) hr ho ((body_mandatory h).mpr ⟨hb, hdefaults⟩)
    | composite hget hp hb => exact .composite hget hp ((parted_mandatory h).mpr ⟨hb, hdefaults⟩)

end Steps

/-! ## Runs -/

/-- The check lets through the runs to schemas with all defaults. -/
theorem runs_mandatory : ∀ (n : Nat) {s : Progress} {id : TypeId} {σ : Schema} {s' : Progress},
    Runs cx.mandatory n s id σ s' ↔ Runs cx.lenient n s id σ s' ∧ σ.AllDefaults
  | 0, _, _, _, _ => ⟨fun h => absurd h runs_zero, fun h => absurd h.1 runs_zero⟩
  | n + 1, _, _, _, _ => by
    rw [runs_succ_iff, runs_succ_iff]
    exact step_mandatory fun _ _ _ _ => runs_mandatory n

theorem derive_mandatory_ok (root : TypeId) (tree : Schema) :
    RuleTable.standard.derive cx.mandatory root = .ok tree ↔
      RuleTable.standard.derive cx.lenient root = .ok tree ∧ tree.AllDefaults := by
  simp only [derive_ok_iff, runs_mandatory]
  constructor
  · rintro ⟨hns, s', h, hdefaults⟩
    exact ⟨⟨hns, s', h⟩, hdefaults⟩
  · rintro ⟨⟨hns, s', h⟩, hdefaults⟩
    exact ⟨hns, s', h, hdefaults⟩

/-- **Mandatory defaults only filter.** Where each field must have a default, a type has a schema if and only if it has
it where none must, and each field in that schema has a default. It has none if it has none there either, or if a field
in the schema that it has there lacks a default. -/
theorem derive_mandatory (g : TypeGraph) (root : TypeId) (o : Options) (ns : Option String) :
    (∀ tree, RuleTable.standard.derive (.of g { o with defaultsMandatory := true } ns) root = .ok tree ↔
      RuleTable.standard.derive (.of g { o with defaultsMandatory := false } ns) root = .ok tree ∧
        tree.AllDefaults) ∧
    ((∃ e, RuleTable.standard.derive (.of g { o with defaultsMandatory := true } ns) root = .error e) ↔
      (∃ e, RuleTable.standard.derive (.of g { o with defaultsMandatory := false } ns) root = .error e) ∨
        ∃ tree, RuleTable.standard.derive (.of g { o with defaultsMandatory := false } ns) root = .ok tree ∧
          ¬ tree.AllDefaults) := by
  have hok (tree : Schema) : RuleTable.standard.derive (Setting.of g o ns).mandatory root = .ok tree ↔
      RuleTable.standard.derive (Setting.of g o ns).lenient root = .ok tree ∧ tree.AllDefaults :=
    derive_mandatory_ok root tree
  refine ⟨hok, ?_⟩
  show (∃ e, RuleTable.standard.derive (Setting.of g o ns).mandatory root = .error e) ↔
    (∃ e, RuleTable.standard.derive (Setting.of g o ns).lenient root = .error e) ∨
      ∃ tree, RuleTable.standard.derive (Setting.of g o ns).lenient root = .ok tree ∧ ¬ tree.AllDefaults
  cases hlenient : RuleTable.standard.derive (Setting.of g o ns).lenient root with
  | error e =>
    cases hmandatory : RuleTable.standard.derive (Setting.of g o ns).mandatory root with
    | error e' => simp
    | ok tree => exact absurd ((hok tree).mp hmandatory).1 (by simp [hlenient])
  | ok tree =>
    cases hmandatory : RuleTable.standard.derive (Setting.of g o ns).mandatory root with
    | error e' =>
      have hdefaults : ¬ tree.AllDefaults := fun h => by
        cases hmandatory.symm.trans ((hok tree).mpr ⟨hlenient, h⟩)
      simpa using hdefaults
    | ok tree' =>
      obtain ⟨hsame, hdefaults⟩ := (hok tree').mp hmandatory
      cases hlenient.symm.trans hsame
      simpa using hdefaults

end Avro
