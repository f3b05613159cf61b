import Avro.Proofs.Renaming.Derivation

/-!
# Schemas along a renaming

The rules of the library make steps that read alike of related types, from steps for the parts that do
(`schema_alike`). In each graph there is depth for all types of that graph, so derivations read alike whatever else is
in the graphs (`schemaWithin_alike`, `derive_alike`).
-/

namespace Avro

open Derive

variable {cx : Setting} {g' : TypeGraph} {ρ : Renaming cx.graph g'} {a b : TypeId} {d d' : Descriptor}
  {s s' : Progress} {n n' : Nat}

/-! ## Types without parts -/

section Leaves

theorem alike_refuse (h : d.name = d'.name) : Derive.Alike ρ Eq s s' (Rule.refuse d) (Rule.refuse d') := by
  unfold Rule.refuse
  rw [h]
  exact alike_throw rfl

variable (hd : ρ.Reads d d')
include hd

theorem alike_basicSchema (o : Options) : Derive.Alike ρ Eq s s' (Rule.basicSchema o d) (Rule.basicSchema o d') := by
  have hshape := hd.shape
  unfold Rule.basicSchema
  generalize d.shape = x at hshape ⊢
  generalize d'.shape = y at hshape ⊢
  cases hshape with
  | @basic kind =>
    dsimp only
    cases Rule.primitive? o kind with
    | some p => exact alike_pure rfl
    | none => exact alike_refuse hd.name
  | _ => exact alike_refuse hd.name

theorem alike_logicalSchema (o : Options) :
    Derive.Alike ρ Eq s s' (Rule.logicalSchema o d) (Rule.logicalSchema o d') := by
  have hshape := hd.shape
  unfold Rule.logicalSchema
  generalize d.shape = x at hshape ⊢
  generalize d'.shape = y at hshape ⊢
  cases hshape with
  | @refined kind =>
    dsimp only
    cases Rule.logicalType? o kind with
    | some p => exact alike_pure rfl
    | none => exact alike_refuse hd.name
  | _ => exact alike_refuse hd.name

theorem alike_forwardSchema : Derive.Alike ρ Eq s s' (Rule.forwardSchema d) (Rule.forwardSchema d') := by
  have hshape := hd.shape
  unfold Rule.forwardSchema
  generalize d.shape = x at hshape ⊢
  generalize d'.shape = y at hshape ⊢
  cases hshape with
  | forward =>
    dsimp only
    split
    · exact alike_throw rfl
    · exact (alike_ofFault (.refl _)).bind fun _ => alike_pure rfl
  | _ => exact alike_refuse hd.name

theorem alike_namedStringSchema :
    Derive.Alike ρ Eq s s' (Rule.namedStringSchema cx d) (Rule.namedStringSchema (cx.over g') d') := by
  unfold Rule.namedStringSchema
  rw [Renaming.namespaceOf_eq hd, hd.name]
  exact (alike_ofFault (.refl _)).bind fun _ => (alike_ofFault (.refl _)).bind fun h => alike_pure (by rw [h])

theorem decimalType_eq : Rule.decimalType d = Rule.decimalType d' := by
  have hshape := hd.shape
  unfold Rule.decimalType
  rw [hd.name]
  generalize d.shape = x at hshape ⊢
  generalize d'.shape = y at hshape ⊢
  cases hshape <;> rfl

end Leaves

/-! ## Types with parts -/

/-- Derivations of near types read alike where there is the depth for them in both graphs. -/
def AlikeBelow (ρ : Renaming cx.graph g') (n n' : Nat) (schema schema' : TypeId → Derive Schema) : Prop :=
  ∀ ⦃s s' a b⦄, ρ.Near a b → s.HasDepth cx.graph n → s'.HasDepth g' n' → Derive.Alike ρ Eq s s' (schema a) (schema' b)

section Composite

variable {p p' : Parts} (hschema : AlikeBelow ρ n n' p.schema p'.schema)
  (henc : ∀ {a b} v, ρ.Near a b → (p.encode a v).Alike ρ.mask Eq (p'.encode b v))
  (hs : s.HasDepth cx.graph (n + 1)) (hs' : s'.HasDepth g' (n' + 1)) (hab : ρ.Rel a b) (hd : ρ.Reads d d')

include hs hs' hab hd in
/-- Occurrences of named types read alike, if their definitions do where there is the depth for their parts. -/
theorem alike_definition {body body' : Header → Derive Schema} (h : ∀ {t t' : Progress} (header : Header),
      t.HasDepth cx.graph n → t'.HasDepth g' n' → Derive.Alike ρ Eq t t' (body header) (body' header)) :
    Derive.Alike ρ Eq s s' (namedSchema cx a d body) (namedSchema (cx.over g') b d' body') := by
  obtain ⟨_, _, ha, hb, -⟩ := ρ.alike hab
  refine alike_namedSchema hab hd fun header fullName hst hst' hnew hnew' => h header ?_ ?_
  · exact (hs.of_before hst).define (TypeGraph.lt_size_of_get? ha) hnew fullName
  · exact (hs'.of_before hst').define (TypeGraph.lt_size_of_get? hb) hnew' fullName

include hs hs' hab hd in
/-- Composite types read alike, if what they are made of does where there is the depth for it. -/
theorem alike_composite {x y : Derive Schema} (h : ∀ {t t' : Progress}, t.HasDepth cx.graph n → t'.HasDepth g' n' →
    Derive.Alike ρ Eq t t' x y) : Derive.Alike ρ Eq s s' (unnamed a d x) (unnamed b d' y) := by
  obtain ⟨_, _, ha, hb, -⟩ := ρ.alike hab
  refine alike_unnamed hab hd fun hst hst' hnew hnew' => h ?_ ?_
  · exact (hs.of_before hst).pend (TypeGraph.lt_size_of_get? ha) hnew
  · exact (hs'.of_before hst').pend (TypeGraph.lt_size_of_get? hb) hnew'

include hab hd in
theorem alike_enumSchema :
    Derive.Alike ρ Eq s s' (Rule.enumSchema cx a d) (Rule.enumSchema (cx.over g') b d') := by
  have hshape := hd.shape
  unfold Rule.enumSchema
  generalize d.shape = x at hshape ⊢
  generalize d'.shape = y at hshape ⊢
  cases hshape with
  | enum =>
    refine alike_namedSchema hab hd fun header fullName _ _ _ _ => ?_
    refine (alike_ofFault (.refl _)).bind fun {symbols symbols'} hsymbols => ?_
    subst hsymbols
    cases symbols with
    | nil => exact alike_throw rfl
    | cons x xs => exact alike_pure rfl
  | _ => exact alike_refuse hd.name

include hschema hs hs' hab hd

theorem alike_unionSchema :
    Derive.Alike ρ Eq s s' (Rule.unionSchema cx p a d) (Rule.unionSchema (cx.over g') p' b d') := by
  have hshape := hd.shape
  unfold Rule.unionSchema
  generalize d.shape = x at hshape ⊢
  generalize d'.shape = y at hshape ⊢
  cases hshape with
  | union hmembers =>
    refine alike_composite hs hs' hab hd fun hdepth hdepth' => ?_
    exact (alike_ofFault (Renaming.flatMembers_alike hmembers)).bind fun hflat =>
      alike_unionOf (fun hnear => hschema hnear hdepth hdepth') hflat
  | _ => exact alike_refuse hd.name

theorem alike_sequenceSchema : Derive.Alike ρ Eq s s' (Rule.sequenceSchema p a d) (Rule.sequenceSchema p' b d') := by
  have hshape := hd.shape
  unfold Rule.sequenceSchema
  generalize d.shape = x at hshape ⊢
  generalize d'.shape = y at hshape ⊢
  cases hshape with
  | sequence helement =>
    exact alike_composite hs hs' hab hd fun hdepth hdepth' => (hschema helement hdepth hdepth').map (congrArg _)
  | _ => exact alike_refuse hd.name

theorem alike_mapSchema :
    Derive.Alike ρ Eq s s' (Rule.mapSchema cx p a d) (Rule.mapSchema (cx.over g') p' b d') := by
  have hshape := hd.shape
  unfold Rule.mapSchema
  generalize d.shape = x at hshape ⊢
  generalize d'.shape = y at hshape ⊢
  cases hshape with
  | map hkey hvalue =>
    refine (alike_ofFault (Renaming.follow_alike hkey)).bind fun {k k'} hk => ?_
    simp only [← Renaming.isBasic_eq hk, ← hk.name, ← hd.name]
    split
    · exact alike_throw rfl
    · exact alike_composite hs hs' hab hd fun hdepth hdepth' => (hschema hvalue hdepth hdepth').map (congrArg _)
  | _ => exact alike_refuse hd.name

include henc

theorem alike_recordSchema :
    Derive.Alike ρ Eq s s' (Rule.recordSchema cx p a d) (Rule.recordSchema (cx.over g') p' b d') := by
  have hshape := hd.shape
  unfold Rule.recordSchema
  generalize d.shape = x at hshape ⊢
  generalize d'.shape = y at hshape ⊢
  cases hshape with
  | record hfs =>
    refine alike_definition hs hs' hab hd fun header hdepth hdepth' => ?_
    exact (alike_fields (fun hnear => hschema hnear hdepth hdepth') henc _ _ hfs).bind fun h => alike_pure (by rw [h])
  | _ => exact alike_refuse hd.name

/-- A rule of the library derives related types alike, if their parts are. -/
theorem schema_alike : ∀ r ∈ RuleTable.library,
    Derive.Alike ρ Eq s s' (r.schema cx p a d) (r.schema (cx.over g') p' b d') := by
  apply RuleTable.library_cases
  case record => exact alike_recordSchema hschema henc hs hs' hab hd
  case union => exact alike_unionSchema hschema hs hs' hab hd
  case sequence => exact alike_sequenceSchema hschema hs hs' hab hd
  case map => exact alike_mapSchema hschema hs hs' hab hd
  case enum => exact alike_enumSchema hab hd
  case duration => exact alike_namedSchema hab hd fun header fullName _ _ _ _ => alike_pure rfl
  case namedString => exact alike_namedStringSchema hd
  case json => exact alike_pure rfl
  case decimal =>
    simp only [Rule.decimal, ← decimalType_eq hd]
    exact (alike_ofFault (.refl _)).bind fun h => alike_pure (by rw [h])
  case basic => exact alike_basicSchema hd _
  case logical => exact alike_logicalSchema hd _
  case forward => exact alike_forwardSchema hd

end Composite

/-! ## Derivations -/

section Derivations

variable {t : RuleTable} (ht : t.OfLibrary)
include ht

theorem schemaWithin_alike : ∀ {n n' : Nat}, AlikeBelow ρ n n' (t.schemaWithin cx (t.encode cx) n)
    (t.schemaWithin (cx.over g') (t.encode (cx.over g')) n')
  | 0, _ => fun _ _ _ _ _ hs _ => absurd hs Progress.not_hasDepth_zero
  | _ + 1, 0 => fun _ _ _ _ _ _ hs' => absurd hs' Progress.not_hasDepth_zero
  | n + 1, n' + 1 => by
    intro s s' a b hab hs hs'
    unfold RuleTable.schemaWithin
    simp only [Setting.over]
    rcases Renaming.get?_cases hab with ⟨ha, hb, hmask⟩ | ⟨d, d', ha, hb, hrel, hd⟩
    · rw [ha, hb]
      exact alike_throw (congrArg (fun id => SchemaError.type (.gone id)) hmask)
    · rw [ha, hb]
      simp only [← Renaming.find_eq ht hd]
      cases hr : t.find cx.graph d with
      | error f => exact alike_throw rfl
      | ok r =>
        exact schema_alike schemaWithin_alike (fun v hnear => Renaming.encode_near ht v hnear) hs hs' hrel hd r
          (ht.of_find hr)

/-- **Near types have the same schema**, or derivations that fail with errors that read alike. -/
theorem derive_alike {root root' : TypeId} (h : ρ.Near root root') :
    (t.derive cx root).mapError (SchemaError.masked ρ.mask) =
      (t.derive (cx.over g') root').mapError (SchemaError.masked ρ.mask) := by
  have hschema : Derive.Alike ρ Eq {} {} (t.schema cx root) (t.schema (cx.over g') root') :=
    schemaWithin_alike ht h Progress.hasDepth_start Progress.hasDepth_start
  refine Alike.result_eq (show Derive.Alike ρ Eq {} {} _ _ from ?_)
  rw [show (cx.over g').givenNs = cx.givenNs from rfl]
  cases cx.givenNs with
  | none => exact hschema
  | some ns => exact (alike_ofFault (.refl _)).bind fun _ => hschema

end Derivations

end Avro
