import Avro.Proofs.Derivation.Dispatch
import Avro.Proofs.Derivation.Yields

/-!
# One step of a derivation by the rules of the library

`Step cx R` says all that the derivation of one type can do, where `R` says what the derivations of its parts do: the
type is a leaf, or a named type that is defined already (`reference`), or one that is defined here (`definition`), or a
composite type without a name (`composite`). What may go wrong is a premise, so the steps that succeed are exactly
these. A step says more if its parts do (`Step.mono`), and no type has steps of two kinds.
-/

namespace Avro

/-- The progress with one more named type defined. -/
def Progress.define (s : Progress) (id : TypeId) (fullName : String) : Progress :=
  { s with registry := ⟨s.registry.entries ++ [(id, fullName)]⟩ }

/-! ## The shapes of steps -/

/-- What the derivation of a type or of a field may do: from some progress, a result and the progress behind it. -/
abbrev Deriving (α β : Type) := Progress → α → β → Progress → Prop

/-- The schema of a type that has no parts and is no definition. -/
inductive Leaf (cx : Setting) (d : Descriptor) : Schema → Prop
  | basic {kind : Basic} {p : Primitive} :
      d.shape = .basic kind → Rule.primitive? cx.options kind = some p → Leaf cx d (.primitive p)
  | refined {kind : Refined} {base : Primitive} {logicalType : String} :
      d.shape = .refined kind → Rule.logicalType? cx.options kind = some (base, logicalType) →
      Leaf cx d (.refined base logicalType)
  | namedString : d.shape = .namedString → cx.ValidHeading d → Leaf cx d (.namedString (cx.fullNameOf d))
  | decimal {params : List Int} {t : Decimal} :
      d.shape = .decimal params → Decimal.ofParams params = .ok t →
      Leaf cx d (.logical .bytes "decimal" (Rule.decimalAttributes t))
  | json : cx.graph.isJson d = true → Leaf cx d (.refined (Rule.documentBase cx.options) "json")
  | forward {name : String} :
      d.shape = .forward name → name.isEmpty = false → Name.checkNamespace name = .ok () → Leaf cx d (.reference name)

/-- The type of a field and the field's default as the schema shows it. -/
inductive FieldType (cx : Setting) (R : Deriving TypeId Schema) (s : Progress) (f : Field) (d : Descriptor) :
    Schema → Option Json → Progress → Prop
  | bare {σ : Schema} {s' : Progress} : f.default = none → R s f.type.target σ s' → FieldType cx R s f d σ none s'
  | plain {v : Value} {σ : Schema} {j : Json} {s' : Progress} :
      f.default = some v → (∀ members, d.shape ≠ .union members) → R s f.type.target σ s' →
      (RuleTable.standard.encode cx f.type.target v).outcome = some (.ok j) → FieldType cx R s f d σ (some j) s'
  | chosen {v : Value} {members : List Edge} {flat : List TypeId} {c : Choice} {σs : List Schema} {s' : Progress} :
      f.default = some v → d.shape = .union members → cx.graph.flatMembers members = .ok flat →
      (Encode.choose cx.graph (RuleTable.standard.encode cx) flat v).outcome = some (.ok c) →
      Threaded R s c.order σs s' → FieldType cx R s f d (.union σs) (some c.encoded) s'

/-- A field. -/
inductive FieldStep (cx : Setting) (R : Deriving TypeId Schema) : Deriving Field (SchemaField Schema)
  | mk {s s' : Progress} {f : Field} {d : Descriptor} {σ : Schema} {default : Option Json} :
      Name.check (cx.fieldName f) = .ok () → (cx.options.defaultsMandatory = true → f.default.isSome = true) →
      cx.graph.get? f.type.target = some d → FieldType cx R s f d σ default s' →
      FieldStep cx R s f ⟨cx.fieldName f, σ, cx.fieldDoc f.doc, default⟩ s'

/-- The definition of a named type. -/
inductive Body (cx : Setting) (R : Deriving TypeId Schema) (s : Progress) (d : Descriptor) : Schema → Progress → Prop
  | enum {symbols : List String} {x : String} {xs : List String} :
      d.shape = .enum symbols → Rule.distinctSymbols [] symbols = .ok (x :: xs) →
      Body cx R s d (.enum (cx.headingOf d) (cx.typeDoc d.doc) (x :: xs) x) s
  | duration :
      d.shape = .refined .duration → Body cx R s d (.fixed (cx.headingOf d) Rule.durationSize (some "duration")) s
  | record {fs : List Field} {ss : List (SchemaField Schema)} {s' : Progress} :
      d.shape = .record fs → Threaded (FieldStep cx R) s fs ss s' → (ss.map SchemaField.name).Nodup →
      Body cx R s d (.record (cx.headingOf d) (cx.typeDoc d.doc) ss) s'

/-- The schema of a composite type without a name, from those of its parts. -/
inductive Parted (cx : Setting) (R : Deriving TypeId Schema) (s : Progress) (d : Descriptor) : Schema → Progress → Prop
  | union {members : List Edge} {flat : List TypeId} {σs : List Schema} {s' : Progress} :
      d.shape = .union members → cx.graph.flatMembers members = .ok flat → Threaded R s flat σs s' →
      Parted cx R s d (.union σs) s'
  | sequence {element : Edge} {σ : Schema} {s' : Progress} :
      d.shape = .sequence element → cx.graph.isJson d = false → R s element.target σ s' →
      Parted cx R s d (.array σ) s'
  | map {key value : Edge} {k : Descriptor} {σ : Schema} {s' : Progress} :
      d.shape = .map key value → cx.graph.isJson d = false → cx.graph.target? key = some k →
      k.isBasic .string = true → R s value.target σ s' → Parted cx R s d (.map σ) s'

/-- Whether the type is a composite one without a name, of parts that have schemas. -/
def TypeGraph.isParted (g : TypeGraph) (d : Descriptor) : Bool :=
  match d.shape with
  | .union _ => true
  | .map _ _ | .sequence _ => !g.isJson d
  | _ => false

/-- The derivation of one type, over those of its parts. -/
inductive Step (cx : Setting) (R : Deriving TypeId Schema) : Deriving TypeId Schema
  | leaf {s : Progress} {id : TypeId} {d : Descriptor} {σ : Schema} :
      cx.graph.get? id = some d → Leaf cx d σ → Step cx R s id σ s
  | reference {s : Progress} {id : TypeId} {d : Descriptor} {fullName : String} :
      cx.graph.get? id = some d → d.isNamed = true → cx.ValidHeading d → s.registry.nameOf? id = some fullName →
      Step cx R s id (.reference fullName) s
  | definition {s t : Progress} {id : TypeId} {d : Descriptor} {σ : Schema} :
      cx.graph.get? id = some d → d.isNamed = true → cx.ValidHeading d → s.registry.nameOf? id = none →
      s.registry.ownerOf? (cx.fullNameOf d) = none →
      Body cx R { s.define id (cx.fullNameOf d) with pending := [] } d σ t →
      Step cx R s id σ { t with pending := s.pending }
  | composite {s t : Progress} {id : TypeId} {d : Descriptor} {σ : Schema} :
      cx.graph.get? id = some d → id ∉ s.pending → Parted cx R { s with pending := id :: s.pending } d σ t →
      Step cx R s id σ { t with pending := s.pending }

/-! ## Leaves -/

/-- The schema of a leaf, by the shape of its type. -/
theorem leaf_iff {cx : Setting} {d : Descriptor} {σ : Schema} : Leaf cx d σ ↔
    match d.shape with
    | .basic kind => ∃ p, Rule.primitive? cx.options kind = some p ∧ σ = .primitive p
    | .refined kind => ∃ t, Rule.logicalType? cx.options kind = some t ∧ σ = .refined t.1 t.2
    | .namedString => cx.ValidHeading d ∧ σ = .namedString (cx.fullNameOf d)
    | .decimal params => ∃ t, Decimal.ofParams params = .ok t ∧ σ = .logical .bytes "decimal" (Rule.decimalAttributes t)
    | .forward name => (name.isEmpty = false ∧ Name.checkNamespace name = .ok ()) ∧ σ = .reference name
    | .map _ _ | .sequence _ => cx.graph.isJson d = true ∧ σ = .refined (Rule.documentBase cx.options) "json"
    | .enum _ | .record _ | .union _ => False := by
  constructor
  · intro h
    cases h with
    | basic hd hp => rw [hd]; exact ⟨_, hp, rfl⟩
    | refined hd hl => rw [hd]; exact ⟨_, hl, rfl⟩
    | namedString hd hv => rw [hd]; exact ⟨hv, rfl⟩
    | decimal hd ht => rw [hd]; exact ⟨_, ht, rfl⟩
    | forward hd hne hns => rw [hd]; exact ⟨⟨hne, hns⟩, rfl⟩
    | json hj =>
      rcases TypeGraph.collection_of_isJson hj with ⟨_, _, hd⟩ | ⟨_, hd⟩
      · rw [hd]; exact ⟨hj, rfl⟩
      · rw [hd]; exact ⟨hj, rfl⟩
  · intro h
    split at h <;> rename_i hd
    · obtain ⟨p, hp, rfl⟩ := h; exact .basic hd hp
    · obtain ⟨t, ht, rfl⟩ := h; exact .refined hd ht
    · obtain ⟨hv, rfl⟩ := h; exact .namedString hd hv
    · obtain ⟨t, ht, rfl⟩ := h; exact .decimal hd ht
    · obtain ⟨⟨hne, hns⟩, rfl⟩ := h; exact .forward hd hne hns
    · obtain ⟨hj, rfl⟩ := h; exact .json hj
    · obtain ⟨hj, rfl⟩ := h; exact .json hj
    all_goals cases h

/-! ## Leaves, definitions and parts are of different types -/

theorem Leaf.not_named {cx : Setting} {d : Descriptor} {σ : Schema} (h : Leaf cx d σ) : d.isNamed = false := by
  cases h with
  | basic hd | namedString hd | decimal hd | forward hd => simp [Descriptor.isNamed, hd]
  | @refined kind _ _ hd hl => cases kind <;> simp_all [Descriptor.isNamed, Rule.logicalType?]
  | json hj => rcases TypeGraph.collection_of_isJson hj with ⟨_, _, hd⟩ | ⟨_, hd⟩ <;> simp [Descriptor.isNamed, hd]

theorem Leaf.not_parted {cx : Setting} {d : Descriptor} {σ : Schema} (h : Leaf cx d σ) :
    cx.graph.isParted d = false := by
  cases h with
  | basic hd | refined hd | namedString hd | decimal hd | forward hd => simp [TypeGraph.isParted, hd]
  | json hj => rcases TypeGraph.collection_of_isJson hj with ⟨_, _, hd⟩ | ⟨_, hd⟩ <;> simp [TypeGraph.isParted, hd, hj]

theorem Parted.parted {cx : Setting} {R : Deriving TypeId Schema} {s s' : Progress} {d : Descriptor} {σ : Schema}
    (h : Parted cx R s d σ s') : cx.graph.isParted d = true := by
  cases h with
  | union hd => simp [TypeGraph.isParted, hd]
  | sequence hd hj | map hd hj => simp [TypeGraph.isParted, hd, hj]

theorem Parted.not_named {cx : Setting} {R : Deriving TypeId Schema} {s s' : Progress} {d : Descriptor} {σ : Schema}
    (h : Parted cx R s d σ s') : d.isNamed = false := by
  cases h with
  | union hd | sequence hd | map hd => simp [Descriptor.isNamed, hd]

/-! ## Monotonicity -/

section Mono

variable {cx : Setting} {R Q : Deriving TypeId Schema} (hRQ : ∀ {s id σ s'}, R s id σ s' → Q s id σ s')
include hRQ

omit hRQ in
theorem Threaded.mono {α β : Type} {R Q : Deriving α β} (hRQ : ∀ {s a b s'}, R s a b s' → Q s a b s') {s : Progress}
    {as : List α} {bs : List β} {s' : Progress} (h : Threaded R s as bs s') : Threaded Q s as bs s' := by
  induction h with
  | nil s => exact .nil s
  | cons hab _ ih => exact .cons (hRQ hab) ih

theorem FieldType.mono {s : Progress} {f : Field} {d : Descriptor} {σ : Schema} {j? : Option Json} {s' : Progress}
    (h : FieldType cx R s f d σ j? s') : FieldType cx Q s f d σ j? s' := by
  cases h with
  | bare hd hR => exact .bare hd (hRQ hR)
  | plain hd hu hR he => exact .plain hd hu (hRQ hR) he
  | chosen hd hu hflat hc hR => exact .chosen hd hu hflat hc (hR.mono hRQ)

theorem FieldStep.mono {s : Progress} {f : Field} {sf : SchemaField Schema} {s' : Progress}
    (h : FieldStep cx R s f sf s') : FieldStep cx Q s f sf s' := by
  obtain ⟨hname, hmand, hget, htype⟩ := h
  exact .mk hname hmand hget (htype.mono hRQ)

theorem Body.mono {s : Progress} {d : Descriptor} {σ : Schema} {s' : Progress} (h : Body cx R s d σ s') :
    Body cx Q s d σ s' := by
  cases h with
  | enum hd hs => exact .enum hd hs
  | duration hd => exact .duration hd
  | record hd hfs hnodup => exact .record hd (hfs.mono fun h => h.mono hRQ) hnodup

theorem Parted.mono {s : Progress} {d : Descriptor} {σ : Schema} {s' : Progress} (h : Parted cx R s d σ s') :
    Parted cx Q s d σ s' := by
  cases h with
  | union hd hflat hR => exact .union hd hflat (hR.mono hRQ)
  | sequence hd hj hR => exact .sequence hd hj (hRQ hR)
  | map hd hj hk hstr hR => exact .map hd hj hk hstr (hRQ hR)

theorem Step.mono {s : Progress} {id : TypeId} {σ : Schema} {s' : Progress} (h : Step cx R s id σ s') :
    Step cx Q s id σ s' := by
  cases h with
  | leaf hget hl => exact .leaf hget hl
  | reference hget hn hv hr => exact .reference hget hn hv hr
  | definition hget hn hv hr ho hb => exact .definition hget hn hv hr ho (hb.mono hRQ)
  | composite hget hp hb => exact .composite hget hp (hb.mono hRQ)

end Mono

end Avro
