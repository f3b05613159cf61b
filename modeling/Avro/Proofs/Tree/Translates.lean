import Avro.Proofs.Lists
import Avro.Proofs.Tree.Labels

/-!
# What the schema of a type shows

`Translates cx M Ref id default σ` says that the schema `σ` shows the type, where `M` says this of its parts and `Ref`
of its name if it stands there by its name. The default is that of the field that has the type, and decides on the
order of a union. It has no progress any more: which types were defined before is left to `Ref`.
-/

namespace Avro

/-- What says that a schema shows a type, which may be that of a field with a default. -/
abbrev Shows := TypeId → Option Value → Schema → Prop

/-- The schema of a field shows the field. -/
structure FieldTranslates (cx : Setting) (M : Shows) (f : Field) (s : SchemaField Schema) : Prop where
  name : s.name = cx.fieldName f
  valid : Name.check (cx.fieldName f) = .ok ()
  doc : s.doc = cx.fieldDoc f.doc
  type : M f.type.target f.default s.type
  mandatory : cx.options.defaultsMandatory = true → f.default.isSome = true
  /-- There is a default where the field declares one, and it is the encoding of that one. -/
  noDefault : f.default = none → s.default = none
  default : ∀ v, f.default = some v →
    ∃ j, s.default = some j ∧ (RuleTable.standard.encode cx f.type.target v).outcome = some (.ok j)

/-- The schema shows the type. -/
inductive Translates (cx : Setting) (M : Shows) (Ref : TypeId → String → Prop) (id : TypeId) (default : Option Value) :
    Schema → Prop
  | leaf {d : Descriptor} {σ : Schema} :
      cx.graph.get? id = some d → Leaf cx d σ → Translates cx M Ref id default σ
  | reference {d : Descriptor} {fullName : String} :
      cx.graph.get? id = some d → d.isNamed = true → cx.ValidHeading d → Ref id fullName →
      Translates cx M Ref id default (.reference fullName)
  | enum {d : Descriptor} {symbols : List String} {x : String} {xs : List String} :
      cx.graph.get? id = some d → cx.ValidHeading d → d.shape = .enum symbols →
      Rule.distinctSymbols [] symbols = .ok (x :: xs) →
      Translates cx M Ref id default (.enum (cx.headingOf d) (cx.typeDoc d.doc) (x :: xs) x)
  | duration {d : Descriptor} :
      cx.graph.get? id = some d → cx.ValidHeading d → d.shape = .refined .duration →
      Translates cx M Ref id default (.fixed (cx.headingOf d) Rule.durationSize (some "duration"))
  | record {d : Descriptor} {fs : List Field} {ss : List (SchemaField Schema)} :
      cx.graph.get? id = some d → cx.ValidHeading d → d.shape = .record fs →
      List.Forall₂ (FieldTranslates cx M) fs ss → (ss.map SchemaField.name).Nodup →
      Translates cx M Ref id default (.record (cx.headingOf d) (cx.typeDoc d.doc) ss)
  | union {d : Descriptor} {members : List Edge} {flat order : List TypeId} {σs : List Schema} :
      cx.graph.get? id = some d → d.shape = .union members → cx.graph.flatMembers members = .ok flat →
      cx.OrderFor default flat order → List.Forall₂ (fun m τ => M m none τ) order σs →
      Translates cx M Ref id default (.union σs)
  | sequence {d : Descriptor} {element : Edge} {σ : Schema} :
      cx.graph.get? id = some d → d.shape = .sequence element → cx.graph.isJson d = false →
      M element.target none σ → Translates cx M Ref id default (.array σ)
  | map {d : Descriptor} {key value : Edge} {k : Descriptor} {σ : Schema} :
      cx.graph.get? id = some d → d.shape = .map key value → cx.graph.isJson d = false →
      cx.graph.target? key = some k → k.isBasic .string = true → M value.target none σ →
      Translates cx M Ref id default (.map σ)

section

variable {cx : Setting} {M N : Shows} {Ref Ref' : TypeId → String → Prop} {id : TypeId} {default : Option Value}
  {σ : Schema}

theorem FieldTranslates.imp (hMN : ∀ {id v σ}, M id v σ → N id v σ) {f : Field} {s : SchemaField Schema}
    (h : FieldTranslates cx M f s) : FieldTranslates cx N f s := { h with type := hMN h.type }

/-- What is said of the parts may be weakened, and so may what is said of the name if the schema is a reference. -/
theorem Translates.imp (hMN : ∀ {id v σ}, M id v σ → N id v σ) (hRef : ∀ {d fullName}, cx.graph.get? id = some d →
      d.isNamed = true → σ = .reference fullName → Ref id fullName → Ref' id fullName)
    (h : Translates cx M Ref id default σ) : Translates cx N Ref' id default σ := by
  cases h with
  | leaf hget hl => exact .leaf hget hl
  | reference hget hn hv hr => exact .reference hget hn hv (hRef hget hn rfl hr)
  | enum hget hv hd hs => exact .enum hget hv hd hs
  | duration hget hv hd => exact .duration hget hv hd
  | record hget hv hd hfs hnodup => exact .record hget hv hd (hfs.imp fun _ _ h => h.imp hMN) hnodup
  | union hget hd hflat ho hσs => exact .union hget hd hflat ho (hσs.imp fun _ _ h => hMN h)
  | sequence hget hd hj hσ => exact .sequence hget hd hj (hMN hσ)
  | map hget hd hj hk hstr hσ => exact .map hget hd hj hk hstr (hMN hσ)

theorem map_name_of_translates {fs : List Field} {ss : List (SchemaField Schema)}
    (h : List.Forall₂ (FieldTranslates cx M) fs ss) : ss.map SchemaField.name = fs.map cx.fieldName :=
  map_eq_map_of_forall₂ h FieldTranslates.name

/-! ## Parts -/

/-- The order that a default gives is the one that a schema shows. -/
theorem Setting.orderOf_eq {d : Descriptor} {members : List Edge} {flat order : List TypeId}
    (hget : cx.graph.get? id = some d) (hd : d.shape = .union members) (hflat : cx.graph.flatMembers members = .ok flat)
    (ho : cx.OrderFor default flat order) : cx.orderOf id default = order := by
  have hmembers : cx.graph.membersOf id = flat := by
    simp [TypeGraph.membersOf, hget, hd, hflat, Except.toOption]
  cases default with
  | none => exact hmembers.trans ho.symm
  | some v =>
    obtain ⟨before, m, after, rfl, rfl, ⟨j, hj⟩, hbefore⟩ := ho
    have hc : (Encode.choose cx.graph (RuleTable.standard.encode cx) (before ++ m :: after) v).outcome =
        some (.ok ⟨m, j, before ++ after⟩) := Encode.choose_ok_iff.mpr ⟨before, after, rfl, rfl, hj, hbefore⟩
    simp only [orderOf, hmembers, hc, Choice.order]

/-- The first member that a schema shows of a union is the one that the default belongs to. -/
theorem Setting.OrderFor.first {d : Descriptor} {members : List Edge} {flat order : List TypeId} {v : Value} {j : Json}
    (ho : cx.OrderFor (some v) flat order) (hget : cx.graph.get? id = some d) (hd : d.shape = .union members)
    (hflat : cx.graph.flatMembers members = .ok flat)
    (h : (RuleTable.standard.encode cx id v).outcome = some (.ok j)) :
    ∃ m others, order = m :: others ∧ (RuleTable.standard.encode cx m v).outcome = some (.ok j) := by
  obtain ⟨c, hc, rfl⟩ := (encode_union_ok hget hd hflat).mp h
  obtain ⟨_, _, _, _, hj, _⟩ := Encode.choose_ok_iff.mp hc
  refine ⟨c.member, c.others, ?_, hj⟩
  rw [← Setting.orderOf_eq hget hd hflat ho, Setting.orderOf_eq hget hd hflat (orderFor_choose hc), Choice.order]

theorem TypeGraph.fieldsOf_eq {g : TypeGraph} {d : Descriptor} {fs : List Field} (hget : g.get? id = some d)
    (hd : d.shape = .record fs) : g.fieldsOf id = fs := by simp [fieldsOf, hget, Descriptor.fields?, hd]

/-- What is said of the parts is said of the parts of the node. -/
theorem Translates.of_kids (h : Translates cx M Ref id default σ) {k : Node} (hk : k ∈ cx.kids ⟨id, default, σ⟩) :
    M k.type k.default k.schema := by
  cases h with
  | leaf hget hl =>
    cases hl <;> cases hk
  | reference | enum | duration => cases hk
  | record hget hv hd hfs hnodup =>
    simp only [Setting.kids, TypeGraph.fieldsOf_eq hget hd] at hk
    obtain ⟨f, s, hfs, rfl⟩ := exists_of_mem_zipWith hfs hk
    exact hfs.type
  | union hget hd hflat ho hσs =>
    simp only [Setting.kids, Setting.orderOf_eq hget hd hflat ho] at hk
    obtain ⟨m, τ, hm, rfl⟩ := exists_of_mem_zipWith hσs hk
    exact hm
  | sequence hget hd hj hσ | map hget hd hj hk hstr hσ =>
    simp [Setting.kids, TypeGraph.partOf?, hget, hd] at hk
    subst hk
    exact hσ

/-- The parts of the node are its parts. -/
theorem Translates.kids (h : Translates cx M Ref id default σ) :
    Translates cx (fun i v τ => ⟨i, v, τ⟩ ∈ cx.kids ⟨id, default, σ⟩) Ref id default σ := by
  cases h with
  | leaf hget hl => exact .leaf hget hl
  | reference hget hn hv hr => exact .reference hget hn hv hr
  | enum hget hv hd hs => exact .enum hget hv hd hs
  | duration hget hv hd => exact .duration hget hv hd
  | record hget hv hd hfs hnodup =>
    refine .record hget hv hd ?_ hnodup
    have hmem := forall₂_mem_zipWith (f := fun s f => (⟨f.type.target, f.default, s.type⟩ : Node)) hfs.length_eq
    refine List.Forall₂.mp (fun f s hfs hm => { hfs with type := ?_ }) hfs hmem
    simpa only [Setting.kids, TypeGraph.fieldsOf_eq hget hd] using hm
  | union hget hd hflat ho hσs =>
    refine .union hget hd hflat ho ?_
    simp only [Setting.kids, Setting.orderOf_eq hget hd hflat ho]
    exact forall₂_mem_zipWith hσs.length_eq
  | sequence hget hd hj hσ => exact .sequence hget hd hj (by simp [Setting.kids, TypeGraph.partOf?, hget, hd])
  | map hget hd hj hk hstr hσ => exact .map hget hd hj hk hstr (by simp [Setting.kids, TypeGraph.partOf?, hget, hd])

/-- The parts of the node show all that is right inside its schema, in order. -/
theorem Translates.map_schema_kids (h : Translates cx M Ref id default σ) :
    (cx.kids ⟨id, default, σ⟩).map Node.schema = σ.parts := by
  cases h with
  | leaf hget hl => cases hl <;> rfl
  | reference | enum | duration => rfl
  | record hget hv hd hfs hnodup =>
    simp only [Setting.kids, TypeGraph.fieldsOf_eq hget hd, Schema.parts]
    exact map_zipWith_of_forall₂ hfs fun _ _ => rfl
  | union hget hd hflat ho hσs =>
    simp only [Setting.kids, Setting.orderOf_eq hget hd hflat ho, Schema.parts]
    exact (map_zipWith_of_forall₂ (k := fun τ => τ) hσs fun _ _ => rfl).trans (List.map_id' _)
  | sequence hget hd | map hget hd => simp [Setting.kids, TypeGraph.partOf?, hget, hd, Schema.parts]

end

end Avro
