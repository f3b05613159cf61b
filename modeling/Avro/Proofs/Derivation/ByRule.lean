import Avro.Proofs.Derivation.Step

/-!
# What the rules of the library yield

Rule by rule, the derivation of a schema succeeds exactly as a step says (`rule_step`), where the derivations of the
parts are left open: `schema` is any way to derive them.
-/

namespace Avro

/-- An edge is followed if and only if there is a description at its end. -/
theorem TypeGraph.follow_ok {g : TypeGraph} {e : Edge} {d : Descriptor} :
    g.follow e = .ok d ↔ g.get? e.target = some d := by
  unfold follow target?
  cases g.get? e.target <;> simp

/-! ## Named types and composite types without a name -/

namespace Derive

variable {α : Type} {cx : Setting} {id : TypeId} {d : Descriptor} {s s' : Progress}

theorem yields_claim {fullName : String} {c : Claim} : (claim id fullName).Yields s c s' ↔
    (∃ known, s.registry.nameOf? id = some known ∧ c = .known known ∧ s' = s) ∨
      (s.registry.nameOf? id = none ∧ s.registry.ownerOf? fullName = none ∧ c = .fresh ∧
        s' = s.define id fullName) := by
  simp only [claim, yields_bind, yields_get, yields_ofFault, yields_set, yields_pure, Registry.claim]
  cases hid : s.registry.nameOf? id with
  | some known =>
    constructor
    · rintro ⟨_, _, ⟨rfl, rfl⟩, ⟨c', r⟩, _, ⟨hc, rfl⟩, _, _, rfl, rfl, rfl⟩
      rw [hid] at hc
      cases hc
      exact .inl ⟨known, rfl, rfl, rfl⟩
    · rintro (⟨_, hk, rfl, rfl⟩ | ⟨hn, -⟩)
      · cases hk
        exact ⟨_, _, ⟨rfl, rfl⟩, (.known known, s'.registry), _, ⟨by rw [hid], rfl⟩, .unit, _, rfl, rfl, rfl⟩
      · cases hn
  | none =>
    cases ho : s.registry.ownerOf? fullName with
    | some other =>
      constructor
      · rintro ⟨_, _, ⟨rfl, rfl⟩, ⟨c', r⟩, _, ⟨hc, rfl⟩, -⟩
        rw [hid, ho] at hc
        cases hc
      · rintro (⟨_, hk, -⟩ | ⟨-, hn, -⟩)
        · cases hk
        · cases hn
    | none =>
      constructor
      · rintro ⟨_, _, ⟨rfl, rfl⟩, ⟨c', r⟩, _, ⟨hc, rfl⟩, _, _, rfl, rfl, rfl⟩
        rw [hid, ho] at hc
        cases hc
        exact .inr ⟨rfl, rfl, rfl, rfl⟩
      · rintro (⟨_, hk, -⟩ | ⟨-, -, rfl, rfl⟩)
        · cases hk
        · exact ⟨_, _, ⟨rfl, rfl⟩, (.fresh, (s.define id fullName).registry), _, ⟨by rw [hid, ho]; rfl, rfl⟩, .unit,
            _, rfl, rfl, rfl⟩

/-- A named type stands by its name if it is defined, and is defined with nothing pending if it is not. -/
theorem yields_namedSchema {body : Header → Derive Schema} {σ : Schema} :
    (namedSchema cx id d body).Yields s σ s' ↔ cx.ValidHeading d ∧
      ((∃ fullName, s.registry.nameOf? id = some fullName ∧ σ = .reference fullName ∧ s' = s) ∨
        (s.registry.nameOf? id = none ∧ s.registry.ownerOf? (cx.fullNameOf d) = none ∧
          ∃ t, (body ⟨cx.headingOf d, cx.typeDoc d.doc⟩).Yields
            { s.define id (cx.fullNameOf d) with pending := [] } σ t ∧ s' = { t with pending := s.pending })) := by
  simp only [namedSchema, named, yields_bind, yields_ofFault, Setting.namespaceOf_ok, yields_claim]
  constructor
  · rintro ⟨o, t, ⟨_, _, ⟨hname, rfl⟩, ns, _, ⟨⟨rfl, hns⟩, rfl⟩, c, u, hc, ho⟩, hσ⟩
    refine ⟨⟨hname, hns⟩, ?_⟩
    rcases hc with ⟨known, hk, rfl, rfl⟩ | ⟨hid, howner, rfl, rfl⟩
    · obtain ⟨rfl, rfl⟩ := yields_pure.mp ho
      obtain ⟨rfl, rfl⟩ := yields_pure.mp hσ
      exact .inl ⟨known, hk, rfl, rfl⟩
    · obtain ⟨τ, hτ, rfl⟩ := yields_map.mp ho
      obtain ⟨rfl, rfl⟩ := yields_pure.mp hσ
      obtain ⟨t, ht, rfl⟩ := yields_withPending.mp hτ
      exact .inr ⟨hid, howner, t, ht, rfl⟩
  · rintro ⟨⟨hname, hns⟩, ⟨known, hk, rfl, rfl⟩ | ⟨hid, howner, t, ht, rfl⟩⟩
    · refine ⟨.reference known, s', ?_, yields_pure.mpr ⟨rfl, rfl⟩⟩
      refine ⟨(), s', ⟨hname, rfl⟩, _, s', ⟨⟨rfl, hns⟩, rfl⟩, .known known, s', .inl ⟨known, hk, rfl, rfl⟩, ?_⟩
      exact yields_pure.mpr ⟨rfl, rfl⟩
    · refine ⟨.definition σ, _, ?_, yields_pure.mpr ⟨rfl, rfl⟩⟩
      refine ⟨(), s, ⟨hname, rfl⟩, _, s, ⟨⟨rfl, hns⟩, rfl⟩, .fresh, _, .inr ⟨hid, howner, rfl, rfl⟩, ?_⟩
      have hbody := yields_withPending.mpr ⟨t, ht, rfl⟩
      exact yields_map.mpr ⟨σ, hbody, rfl⟩

/-- A composite type without a name is derived with itself pending. -/
theorem yields_unnamed {body : Derive α} {a : α} : (unnamed id d body).Yields s a s' ↔
    id ∉ s.pending ∧ ∃ t, body.Yields { s with pending := id :: s.pending } a t ∧
      s' = { t with pending := s.pending } := by
  simp only [unnamed, yields_bind, yields_get]
  constructor
  · rintro ⟨_, _, ⟨rfl, rfl⟩, h⟩
    split at h
    · exact absurd h yields_throw
    · rename_i hnew
      exact ⟨hnew, yields_withPending.mp h⟩
  · rintro ⟨hnew, h⟩
    refine ⟨s, s, ⟨rfl, rfl⟩, ?_⟩
    rw [if_neg hnew]
    exact yields_withPending.mpr h

end Derive

/-! ## Fields and occurrences -/

section Schema

variable {cx : Setting} (schema : TypeId → Derive Schema)

/-- The rules of the library, with `schema` for the parts of types. -/
def Setting.partsBy (cx : Setting) (schema : TypeId → Derive Schema) : Parts := ⟨schema, RuleTable.standard.encode cx⟩

/-- What the derivations of types by `schema` do. -/
def Derive.Does (schema : TypeId → Derive Schema) : Deriving TypeId Schema := fun s id σ s' => (schema id).Yields s σ s'

variable {schema} {id : TypeId} {d : Descriptor} {s s' : Progress} {σ : Schema}

open Derive

theorem yields_fieldType {name : String} {f : Field} {j? : Option Json} :
    (fieldType cx (cx.partsBy schema) name f d).Yields s (σ, j?) s' ↔ FieldType cx (Does schema) s f d σ j? s' := by
  unfold fieldType
  constructor
  · intro h
    split at h
    · rename_i v members hv hd
      simp only [yields_bind, yields_ofFault, yields_ofEncode, yields_pure, yields_unionOf] at h
      obtain ⟨flat, _, ⟨hflat, rfl⟩, c, _, ⟨hc, rfl⟩, _, t, ⟨σs, hσs, rfl⟩, he, rfl⟩ := h
      cases he
      exact .chosen hv hd hflat hc hσs
    · rename_i v hv hu
      simp only [yields_bind, yields_ofEncode, yields_pure] at h
      obtain ⟨τ, t, hτ, j, _, ⟨hj, rfl⟩, he, rfl⟩ := h
      cases he
      exact .plain hv hu hτ hj
    · rename_i hv
      simp only [yields_bind, yields_pure] at h
      obtain ⟨τ, t, hτ, he, rfl⟩ := h
      cases he
      exact .bare hv hτ
  · rintro (⟨hv, hσ⟩ | ⟨hv, hu, hσ, hj⟩ | ⟨hv, hd, hflat, hc, hσs⟩)
    · rw [hv]
      simp only [yields_bind, yields_pure]
      exact ⟨σ, s', hσ, rfl, rfl⟩
    · rw [hv]
      split
      · rename_i members hv' hd
        exact absurd hd (hu members)
      · simp only [yields_bind, yields_ofEncode, yields_pure]
        rename_i v' hv' _
        cases hv'
        exact ⟨σ, s', hσ, _, s', ⟨hj, rfl⟩, rfl, rfl⟩
      · rename_i hv'
        cases hv'
    · rw [hv, hd]
      simp only [yields_bind, yields_ofFault, yields_ofEncode, yields_pure, yields_unionOf]
      exact ⟨_, s, ⟨hflat, rfl⟩, _, s, ⟨hc, rfl⟩, _, s', ⟨_, hσs, rfl⟩, rfl, rfl⟩

theorem yields_field {f : Field} {sf : SchemaField Schema} :
    (field cx (cx.partsBy schema) f).Yields s sf s' ↔ FieldStep cx (Does schema) s f sf s' := by
  unfold field
  simp only [yields_bind, yields_ofFault]
  constructor
  · rintro ⟨_, _, ⟨hname, rfl⟩, h⟩
    split at h
    · exact absurd h (by simp)
    · rename_i hmand
      simp only [yields_bind, yields_ofFault, yields_pure] at h
      obtain ⟨d, _, ⟨hd, rfl⟩, ⟨τ, j?⟩, t, hτ, rfl, rfl⟩ := h
      refine .mk hname (fun hm => ?_) (TypeGraph.follow_ok.mp hd) (yields_fieldType.mp hτ)
      exact Option.isSome_iff_ne_none.mpr (by simpa [hm] using hmand)
  · rintro ⟨hname, hmand, hget, htype⟩
    refine ⟨(), s, ⟨hname, rfl⟩, ?_⟩
    have hcond : ¬ (cx.options.defaultsMandatory && f.default.isNone) = true := by
      intro h
      simp only [Bool.and_eq_true] at h
      have := hmand h.1
      simp_all
    rw [if_neg hcond]
    simp only [yields_bind, yields_ofFault, yields_pure]
    exact ⟨_, s, ⟨TypeGraph.follow_ok.mpr hget, rfl⟩, _, s', yields_fieldType.mpr htype, rfl, rfl⟩

/-- What the definition of a named type yields, if its content yields what a body does. -/
theorem yields_named_step {body : Header → Derive Schema} (hget : cx.graph.get? id = some d) (hn : d.isNamed = true)
    (hbody : ∀ {t τ u}, (body ⟨cx.headingOf d, cx.typeDoc d.doc⟩).Yields t τ u ↔ Body cx (Does schema) t d τ u) :
    (namedSchema cx id d body).Yields s σ s' ↔ Step cx (Does schema) s id σ s' := by
  simp only [yields_namedSchema, hbody]
  constructor
  · rintro ⟨hv, ⟨_, hk, rfl, rfl⟩ | ⟨hid, ho, t, ht, rfl⟩⟩
    · exact .reference hget hn hv hk
    · exact .definition hget hn hv hid ho ht
  · intro h
    cases h with
    | leaf hget' hl => cases hget.symm.trans hget'; exact absurd hl.not_named (by simp [hn])
    | reference hget' _ hv hk => cases hget.symm.trans hget'; exact ⟨hv, .inl ⟨_, hk, rfl, rfl⟩⟩
    | definition hget' _ hv hid ho ht =>
      cases hget.symm.trans hget'
      exact ⟨hv, .inr ⟨hid, ho, _, ht, rfl⟩⟩
    | composite hget' _ hp => cases hget.symm.trans hget'; exact absurd hp.not_named (by simp [hn])

/-- What a composite type without a name yields, if the derivations of its parts yield what parts do. -/
theorem yields_unnamed_step {body : Derive Schema} (hget : cx.graph.get? id = some d)
    (hp : cx.graph.isParted d = true) (hn : d.isNamed = false)
    (hbody : ∀ {t τ u}, body.Yields t τ u ↔ Parted cx (Does schema) t d τ u) :
    (unnamed id d body).Yields s σ s' ↔ Step cx (Does schema) s id σ s' := by
  simp only [yields_unnamed, hbody]
  constructor
  · rintro ⟨hnew, t, ht, rfl⟩
    exact .composite hget hnew ht
  · intro h
    cases h with
    | leaf hget' hl => cases hget.symm.trans hget'; exact absurd hl.not_parted (by simp [hp])
    | reference hget' hn' => cases hget.symm.trans hget'; simp [hn] at hn'
    | definition hget' hn' => cases hget.symm.trans hget'; simp [hn] at hn'
    | composite hget' hnew ht => cases hget.symm.trans hget'; exact ⟨hnew, _, ht, rfl⟩

/-- What a type without parts and without a definition yields. -/
theorem leaf_step (hget : cx.graph.get? id = some d) (hp : cx.graph.isParted d = false) (hn : d.isNamed = false) :
    Step cx (Does schema) s id σ s' ↔ Leaf cx d σ ∧ s' = s := by
  constructor
  · intro h
    cases h with
    | leaf hget' hl => cases hget.symm.trans hget'; exact ⟨hl, rfl⟩
    | reference hget' hn' => cases hget.symm.trans hget'; simp [hn] at hn'
    | definition hget' hn' => cases hget.symm.trans hget'; simp [hn] at hn'
    | composite hget' _ hp' => cases hget.symm.trans hget'; exact absurd hp'.parted (by simp [hp])
  · rintro ⟨hl, rfl⟩
    exact .leaf hget hl

/-! ## Rule by rule -/

section Rules

variable (hget : cx.graph.get? id = some d)
include hget

theorem basic_step {kind : Basic} (hd : d.shape = .basic kind) :
    (Rule.basic.schema cx (cx.partsBy schema) id d).Yields s σ s' ↔ Step cx (Does schema) s id σ s' := by
  rw [leaf_step hget (by simp [TypeGraph.isParted, hd]) (by simp [Descriptor.isNamed, hd]), leaf_iff]
  show (Rule.basicSchema cx.options d).Yields s σ s' ↔ _
  unfold Rule.basicSchema
  rw [hd]
  cases hp : Rule.primitive? cx.options kind with
  | none => simp [hp, Rule.refuse]
  | some p => simp [hp]

theorem logical_step {kind : Refined} (hd : d.shape = .refined kind) (hk : kind ≠ .duration) :
    (Rule.logical.schema cx (cx.partsBy schema) id d).Yields s σ s' ↔ Step cx (Does schema) s id σ s' := by
  have hn : d.isNamed = false := by cases kind <;> simp_all [Descriptor.isNamed]
  rw [leaf_step hget (by simp [TypeGraph.isParted, hd]) hn, leaf_iff]
  show (Rule.logicalSchema cx.options d).Yields s σ s' ↔ _
  unfold Rule.logicalSchema
  rw [hd]
  cases hl : Rule.logicalType? cx.options kind with
  | none => simp [hl, Rule.refuse]
  | some t => simp [hl]

theorem namedString_step (hd : d.shape = .namedString) :
    (Rule.namedString.schema cx (cx.partsBy schema) id d).Yields s σ s' ↔ Step cx (Does schema) s id σ s' := by
  rw [leaf_step hget (by simp [TypeGraph.isParted, hd]) (by simp [Descriptor.isNamed, hd]), leaf_iff, hd]
  show (Rule.namedStringSchema cx d).Yields s σ s' ↔ _
  simp only [Rule.namedStringSchema, yields_bind, yields_ofFault, Setting.namespaceOf_ok, yields_pure]
  constructor
  · rintro ⟨_, _, ⟨hname, rfl⟩, ns, _, ⟨⟨rfl, hns⟩, rfl⟩, rfl, rfl⟩
    exact ⟨⟨⟨hname, hns⟩, rfl⟩, rfl⟩
  · rintro ⟨⟨hv, rfl⟩, rfl⟩
    exact ⟨(), s', ⟨hv.name, rfl⟩, _, s', ⟨⟨rfl, hv.ns⟩, rfl⟩, rfl, rfl⟩

theorem decimal_step {params : List Int} (hd : d.shape = .decimal params) :
    (Rule.decimal.schema cx (cx.partsBy schema) id d).Yields s σ s' ↔ Step cx (Does schema) s id σ s' := by
  rw [leaf_step hget (by simp [TypeGraph.isParted, hd]) (by simp [Descriptor.isNamed, hd]), leaf_iff, hd]
  have htype : ∀ t, Rule.decimalType d = .ok t ↔ Decimal.ofParams params = .ok t := by
    intro t
    unfold Rule.decimalType
    rw [hd]
    cases hp : Decimal.ofParams params <;> simp [hp]
  simp only [Rule.decimal, yields_bind, yields_ofFault, htype, yields_pure]
  constructor
  · rintro ⟨t, _, ⟨ht, rfl⟩, rfl, rfl⟩
    exact ⟨⟨t, ht, rfl⟩, rfl⟩
  · rintro ⟨⟨t, ht, rfl⟩, rfl⟩
    exact ⟨t, s', ⟨ht, rfl⟩, rfl, rfl⟩

theorem forward_step {name : String} (hd : d.shape = .forward name) :
    (Rule.forward.schema cx (cx.partsBy schema) id d).Yields s σ s' ↔ Step cx (Does schema) s id σ s' := by
  rw [leaf_step hget (by simp [TypeGraph.isParted, hd]) (by simp [Descriptor.isNamed, hd]), leaf_iff]
  show (Rule.forwardSchema d).Yields s σ s' ↔ _
  unfold Rule.forwardSchema
  rw [hd]
  cases hne : name.isEmpty with
  | true => simp [hne]
  | false =>
    simp only [hne, Bool.false_eq_true, if_false, yields_bind, yields_ofFault, yields_pure, true_and]
    constructor
    · rintro ⟨_, _, ⟨hns, rfl⟩, rfl, rfl⟩
      exact ⟨⟨hns, rfl⟩, rfl⟩
    · rintro ⟨⟨hns, rfl⟩, rfl⟩
      exact ⟨(), s', ⟨hns, rfl⟩, rfl, rfl⟩

theorem json_step (hj : cx.graph.isJson d = true) :
    (Rule.json.schema cx (cx.partsBy schema) id d).Yields s σ s' ↔ Step cx (Does schema) s id σ s' := by
  have hl : Leaf cx d (.refined (Rule.documentBase cx.options) "json") := .json hj
  rw [leaf_step hget hl.not_parted hl.not_named, leaf_iff]
  simp only [Rule.json, yields_pure]
  rcases TypeGraph.collection_of_isJson hj with ⟨_, _, hd⟩ | ⟨_, hd⟩
  · rw [hd]
    simp [hj]
  · rw [hd]
    simp [hj]

theorem duration_step (hd : d.shape = .refined .duration) :
    (Rule.duration.schema cx (cx.partsBy schema) id d).Yields s σ s' ↔ Step cx (Does schema) s id σ s' := by
  refine yields_named_step hget (by simp [Descriptor.isNamed, hd]) fun {t τ u} => ?_
  rw [yields_pure]
  constructor
  · rintro ⟨rfl, rfl⟩
    exact .duration hd
  · intro h
    cases h with
    | duration => exact ⟨rfl, rfl⟩
    | enum hd' | record hd' => cases hd.symm.trans hd'

theorem enum_step {symbols : List String} (hd : d.shape = .enum symbols) :
    (Rule.enum.schema cx (cx.partsBy schema) id d).Yields s σ s' ↔ Step cx (Does schema) s id σ s' := by
  show (Rule.enumSchema cx id d).Yields s σ s' ↔ _
  unfold Rule.enumSchema
  rw [hd]
  refine yields_named_step hget (by simp [Descriptor.isNamed, hd]) fun {t τ u} => ?_
  simp only [yields_bind, yields_ofFault]
  constructor
  · rintro ⟨xs, _, ⟨hxs, rfl⟩, h⟩
    cases xs with
    | nil => exact absurd h yields_throw
    | cons x xs =>
      obtain ⟨rfl, rfl⟩ := yields_pure.mp h
      exact .enum hd hxs
  · intro h
    cases h with
    | enum hd' hxs => cases hd.symm.trans hd'; exact ⟨_, _, ⟨hxs, rfl⟩, yields_pure.mpr ⟨rfl, rfl⟩⟩
    | duration hd' | record hd' => cases hd.symm.trans hd'

theorem record_step {fs : List Field} (hd : d.shape = .record fs) :
    (Rule.record.schema cx (cx.partsBy schema) id d).Yields s σ s' ↔ Step cx (Does schema) s id σ s' := by
  show (Rule.recordSchema cx (cx.partsBy schema) id d).Yields s σ s' ↔ _
  unfold Rule.recordSchema
  rw [hd]
  refine yields_named_step hget (by simp [Descriptor.isNamed, hd]) fun {t τ u} => ?_
  simp only [yields_bind, yields_fields, yields_pure, List.not_mem_nil, not_false_eq_true, implies_true, and_true]
  constructor
  · rintro ⟨ss, _, ⟨hss, hnodup⟩, rfl, rfl⟩
    exact .record hd (hss.mono yields_field.mp) hnodup
  · intro h
    cases h with
    | record hd' hss hnodup =>
      cases hd.symm.trans hd'
      exact ⟨_, u, ⟨hss.mono yields_field.mpr, hnodup⟩, rfl, rfl⟩
    | enum hd' | duration hd' => cases hd.symm.trans hd'

theorem union_step {members : List Edge} (hd : d.shape = .union members) :
    (Rule.union.schema cx (cx.partsBy schema) id d).Yields s σ s' ↔ Step cx (Does schema) s id σ s' := by
  show (Rule.unionSchema cx (cx.partsBy schema) id d).Yields s σ s' ↔ _
  unfold Rule.unionSchema
  rw [hd]
  refine yields_unnamed_step hget (by simp [TypeGraph.isParted, hd]) (by simp [Descriptor.isNamed, hd])
    fun {t τ u} => ?_
  simp only [Derive.union, yields_bind, yields_ofFault, yields_unionOf]
  constructor
  · rintro ⟨flat, _, ⟨hflat, rfl⟩, σs, hσs, rfl⟩
    exact .union hd hflat hσs
  · intro h
    cases h with
    | union hd' hflat hσs => cases hd.symm.trans hd'; exact ⟨_, t, ⟨hflat, rfl⟩, _, hσs, rfl⟩
    | sequence hd' | map hd' => cases hd.symm.trans hd'

theorem sequence_step {element : Edge} (hd : d.shape = .sequence element) (hj : cx.graph.isJson d = false) :
    (Rule.sequence.schema cx (cx.partsBy schema) id d).Yields s σ s' ↔ Step cx (Does schema) s id σ s' := by
  show (Rule.sequenceSchema (cx.partsBy schema) id d).Yields s σ s' ↔ _
  unfold Rule.sequenceSchema
  rw [hd]
  refine yields_unnamed_step hget (by simp [TypeGraph.isParted, hd, hj]) (by simp [Descriptor.isNamed, hd])
    fun {t τ u} => ?_
  simp only [yields_map]
  constructor
  · rintro ⟨σ, hσ, rfl⟩
    exact .sequence hd hj hσ
  · intro h
    cases h with
    | sequence hd' _ hσ => cases hd.symm.trans hd'; exact ⟨_, hσ, rfl⟩
    | union hd' | map hd' => cases hd.symm.trans hd'

theorem map_step {key value : Edge} (hd : d.shape = .map key value) (hj : cx.graph.isJson d = false) :
    (Rule.map.schema cx (cx.partsBy schema) id d).Yields s σ s' ↔ Step cx (Does schema) s id σ s' := by
  -- the key is looked at before anything is pending, so it is moved into the body first
  have hbody : (Rule.mapSchema cx (cx.partsBy schema) id d).Yields s σ s' ↔
      (unnamed id d do
        let k ← ofFault (cx.graph.follow key)
        if !k.isBasic .string then throw (.type (.unsupported (.mapKeys d.name k.name)))
        .map <$> schema value.target).Yields s σ s' := by
    unfold Rule.mapSchema
    rw [hd]
    simp only [yields_unnamed, yields_bind, yields_ofFault]
    constructor
    · rintro ⟨k, _, ⟨hk, rfl⟩, h⟩
      split at h
      · exact absurd h yields_throw
      · rename_i hstr
        obtain ⟨hnew, t, ht, rfl⟩ := yields_unnamed.mp h
        refine ⟨hnew, t, ⟨k, _, ⟨hk, rfl⟩, ?_⟩, rfl⟩
        rw [if_neg hstr]
        exact ht
    · rintro ⟨hnew, t, ⟨k, _, ⟨hk, rfl⟩, h⟩, rfl⟩
      split at h
      · exact absurd h yields_throw
      · rename_i hstr
        refine ⟨k, s, ⟨hk, rfl⟩, ?_⟩
        rw [if_neg hstr]
        exact yields_unnamed.mpr ⟨hnew, t, h, rfl⟩
  show (Rule.mapSchema cx (cx.partsBy schema) id d).Yields s σ s' ↔ _
  rw [hbody]
  refine yields_unnamed_step hget (by simp [TypeGraph.isParted, hd, hj]) (by simp [Descriptor.isNamed, hd])
    fun {t τ u} => ?_
  simp only [yields_bind, yields_ofFault]
  constructor
  · rintro ⟨k, _, ⟨hk, rfl⟩, h⟩
    split at h
    · exact absurd h yields_throw
    · rename_i hstr
      obtain ⟨σ, hσ, rfl⟩ := yields_map.mp h
      exact .map hd hj (TypeGraph.follow_ok.mp hk) (by simpa using hstr) hσ
  · intro h
    cases h with
    | map hd' _ hk hstr hσ =>
      cases hd.symm.trans hd'
      refine ⟨_, t, ⟨TypeGraph.follow_ok.mpr hk, rfl⟩, ?_⟩
      rw [if_neg (by simp [hstr])]
      exact yields_map.mpr ⟨_, hσ, rfl⟩
    | union hd' | sequence hd' => cases hd.symm.trans hd'

/-- The rule for a type yields what a step of its derivation does; a type without a rule has no step. -/
theorem rule_step : (∃ r, cx.graph.ruleFor? d = some r ∧ (r.schema cx (cx.partsBy schema) id d).Yields s σ s') ↔
    Step cx (Does schema) s id σ s' := by
  have one : ∀ r : Rule, cx.graph.ruleFor? d = some r →
      ((r.schema cx (cx.partsBy schema) id d).Yields s σ s' ↔ Step cx (Does schema) s id σ s') →
      ((∃ r, cx.graph.ruleFor? d = some r ∧ (r.schema cx (cx.partsBy schema) id d).Yields s σ s') ↔
        Step cx (Does schema) s id σ s') := by
    intro r hr hstep
    rw [hr, ← hstep]
    exact ⟨fun ⟨_, he, h⟩ => Option.some.inj he ▸ h, fun h => ⟨r, rfl, h⟩⟩
  cases hd : d.shape with
  | basic kind =>
    by_cases hk : kind = .any
    · subst hk
      rw [leaf_step hget (by simp [TypeGraph.isParted, hd]) (by simp [Descriptor.isNamed, hd]), leaf_iff, hd]
      simp [TypeGraph.ruleFor?, hd, Rule.primitive?]
    · exact one .basic (by cases kind <;> simp_all [TypeGraph.ruleFor?]) (basic_step hget hd)
  | refined kind =>
    by_cases hk : kind = .duration
    · subst hk
      exact one .duration (by simp [TypeGraph.ruleFor?, hd]) (duration_step hget hd)
    · exact one .logical (by cases kind <;> simp_all [TypeGraph.ruleFor?]) (logical_step hget hd hk)
  | namedString => exact one .namedString (by simp [TypeGraph.ruleFor?, hd]) (namedString_step hget hd)
  | enum symbols => exact one .enum (by simp [TypeGraph.ruleFor?, hd]) (enum_step hget hd)
  | record fs => exact one .record (TypeGraph.ruleFor?_record hd) (record_step hget hd)
  | union members => exact one .union (TypeGraph.ruleFor?_union hd) (union_step hget hd)
  | decimal params => exact one .decimal (by simp [TypeGraph.ruleFor?, hd]) (decimal_step hget hd)
  | forward name => exact one .forward (by simp [TypeGraph.ruleFor?, hd]) (forward_step hget hd)
  | sequence element =>
    cases hj : cx.graph.isJson d with
    | true => exact one .json (by simp [TypeGraph.ruleFor?, hd, hj]) (json_step hget hj)
    | false => exact one .sequence (TypeGraph.ruleFor?_sequence hd hj) (sequence_step hget hd hj)
  | map key value =>
    cases hj : cx.graph.isJson d with
    | true => exact one .json (by simp [TypeGraph.ruleFor?, hd, hj]) (json_step hget hj)
    | false => exact one .map (TypeGraph.ruleFor?_map hd hj) (map_step hget hd hj)

end Rules

end Schema

end Avro
