import Avro.Proofs.Recast.Derivation

/-!
# Schemas in settings that show other names and documentation

The rules of the library recast (`rule_recasts`), so a setting derives of each type the schema that another setting
derives, recast, if it shows what the other shows, recast (`derive_recasts`). Types that are known only by their names
keep them, so a recast may not change these.
-/

namespace Avro

open Derive

variable {r : Recast} {m : Option String → Option String} {cx cx' : Setting} {p p' : Parts} {root id : TypeId}
  {d : Descriptor} (h : cx.Recasts r m cx')

/-! ## Types without parts -/

section Leaves
include h

theorem recasts_basicSchema {kind : Basic} {prim : Primitive} (hd : d.shape = .basic kind)
    (hprim : Rule.primitive? cx.options kind = some prim) :
    Derive.Recasts r (Schema.recast r) (Rule.basicSchema cx.options d) (Rule.basicSchema cx'.options (d.mapDocs m)) := by
  have hprim' : Rule.primitive? cx'.options kind = some prim := by
    rw [← hprim]
    unfold Rule.primitive?
    rw [h.int32, h.float32]
  simp only [Rule.basicSchema, Descriptor.shape_mapDocs, hd, Shape.mapDocs, hprim, hprim']
  exact recasts_pure (Schema.primitive prim)

theorem recasts_logicalSchema {kind : Refined} {base : Primitive} {logicalType : String} (hd : d.shape = .refined kind)
    (ht : Rule.logicalType? cx.options kind = some (base, logicalType)) :
    Derive.Recasts r (Schema.recast r) (Rule.logicalSchema cx.options d)
      (Rule.logicalSchema cx'.options (d.mapDocs m)) := by
  have ht' : Rule.logicalType? cx'.options kind = some (base, logicalType) := by
    rw [← ht]
    unfold Rule.logicalType?
    rw [h.inMillis]
  simp only [Rule.logicalSchema, Descriptor.shape_mapDocs, hd, Shape.mapDocs, ht, ht']
  exact recasts_pure (Schema.refined base logicalType)

theorem recasts_namedStringSchema :
    Derive.Recasts r (Schema.recast r) (Rule.namedStringSchema cx d) (Rule.namedStringSchema cx' (d.mapDocs m)) := by
  refine (recasts_ofFault Name.nameless_of_check).bind fun _ => ?_
  refine (recasts_namespaceOf h d).bind fun {_ ns _} hns => ?_
  have hfull : Name.full (r.ns ns) d.name = r.fullName (Name.full ns d.name) := h.full (yields_ofFault.mp hns).1
  show Derive.Recasts r _ _ (pure (Schema.namedString (Name.full (r.ns ns) d.name)))
  rw [hfull]
  exact recasts_pure (Schema.namedString (Name.full ns d.name))

theorem recasts_jsonSchema : Derive.Recasts r (Schema.recast r) (pure (.refined (Rule.documentBase cx.options) "json"))
    (pure (.refined (Rule.documentBase cx'.options) "json")) := by
  have hbase : Rule.documentBase cx'.options = Rule.documentBase cx.options := by
    unfold Rule.documentBase
    rw [h.jsonEncoding]
  rw [hbase]
  exact recasts_pure (Schema.refined (Rule.documentBase cx.options) "json")

omit h

theorem recasts_forwardSchema {name : String} (hd : d.shape = .forward name) (hname : r.fullName name = name) :
    Derive.Recasts r (Schema.recast r) (Rule.forwardSchema d) (Rule.forwardSchema (d.mapDocs m)) := by
  simp only [Rule.forwardSchema, Descriptor.shape_mapDocs, hd, Shape.mapDocs]
  split
  · exact recasts_throw _
  · refine (recasts_ofFault Name.nameless_of_checkNamespace).bind fun _ => ?_
    have hpure : Derive.Recasts r (Schema.recast r) (pure (.reference name)) (pure (.reference (r.fullName name))) :=
      recasts_pure (Schema.reference name)
    rw [hname] at hpure
    exact hpure

theorem recasts_decimalSchema : Derive.Recasts r (Schema.recast r) (Rule.decimal.schema cx p id d)
    (Rule.decimal.schema cx' p' id (d.mapDocs m)) := by
  have htype : Rule.decimalType (d.mapDocs m) = Rule.decimalType d := by
    obtain ⟨name, origin, doc, shape⟩ := d
    cases shape <;> rfl
  show Derive.Recasts r _ (ofFault (Rule.decimalType d) >>= _) (ofFault (Rule.decimalType (d.mapDocs m)) >>= _)
  rw [htype]
  refine (recasts_ofFault Rule.nameless_of_decimalType).bind fun {_ t _} _ => ?_
  exact recasts_pure (Schema.logical .bytes "decimal" (Rule.decimalAttributes t))

end Leaves

/-! ## Named types and types with parts -/

section Composite
include h

theorem recasts_durationSchema : Derive.Recasts r (Schema.recast r) (Rule.duration.schema cx p id d)
    (Rule.duration.schema cx' p' id (d.mapDocs m)) :=
  recasts_namedSchema h id d fun header _ =>
    recasts_pure (Schema.fixed header.toHeading Rule.durationSize (some "duration"))

theorem recasts_enumSchema {symbols : List String} (hd : d.shape = .enum symbols) :
    Derive.Recasts r (Schema.recast r) (Rule.enumSchema cx id d) (Rule.enumSchema cx' id (d.mapDocs m)) := by
  simp only [Rule.enumSchema, Descriptor.shape_mapDocs, hd, Shape.mapDocs]
  refine recasts_namedSchema h id d fun header hfull => ?_
  refine (recasts_ofFault Rule.nameless_of_distinctSymbols).bind fun {_ symbols _} _ => ?_
  cases symbols with
  | nil =>
    show Derive.Recasts r _ _ (throw (.type (.name (header.recast r).fullName .noSymbols)))
    rw [hfull]
    exact recasts_throw (.type (.name header.fullName .noSymbols))
  | cons x xs => exact recasts_pure (Schema.enum header.toHeading header.doc (x :: xs) x)

variable (hp : Parts.Recasts r cx.graph root p p') (hid : cx.graph.Reachable root id) (hget : cx.graph.get? id = some d)
include hp hid hget

theorem recasts_recordSchema {fs : List Field} (hd : d.shape = .record fs) :
    Derive.Recasts r (Schema.recast r) (Rule.recordSchema cx p id d) (Rule.recordSchema cx' p' id (d.mapDocs m)) := by
  simp only [Rule.recordSchema, Descriptor.shape_mapDocs, hd, Shape.mapDocs]
  refine recasts_namedSchema h id d fun header hfull => ?_
  rw [hfull]
  have hfs : ∀ f ∈ fs, cx.graph.Reachable root f.type.target := fun f hf => hid.tail (TypeGraph.leads_field hget hd hf)
  refine (recasts_fields hp h header.fullName [] hfs).bind fun {_ ss _} _ => ?_
  have hrecord : (Schema.record header.toHeading header.doc ss).recast r =
      .record (header.recast r).toHeading (header.recast r).doc (ss.map (SchemaField.recast r)) := by
    rw [Schema.recast, Schema.recastFields_eq]
    rfl
  rw [← hrecord]
  exact recasts_pure _

theorem recasts_unionSchema {members : List Edge} (hd : d.shape = .union members) :
    Derive.Recasts r (Schema.recast r) (Rule.unionSchema cx p id d) (Rule.unionSchema cx' p' id (d.mapDocs m)) := by
  simp only [Rule.unionSchema, Descriptor.shape_mapDocs, hd, Shape.mapDocs]
  refine recasts_unnamed id d ?_
  unfold Derive.union
  rw [h.graph, TypeGraph.flatMembers_mapDocs]
  refine (recasts_ofFault TypeGraph.nameless_of_spliceInto).bind fun {_ flat _} hflat => ?_
  obtain ⟨hflat, -⟩ := yields_ofFault.mp hflat
  exact recasts_unionOf hp fun id' hid' => hid.trans (TypeGraph.reachable_of_mem_flatMembers hget hd hflat hid')

omit h in
theorem recasts_sequenceSchema {element : Edge} (hd : d.shape = .sequence element) (hj : cx.graph.isJson d = false) :
    Derive.Recasts r (Schema.recast r) (Rule.sequenceSchema p id d) (Rule.sequenceSchema p' id (d.mapDocs m)) := by
  simp only [Rule.sequenceSchema, Descriptor.shape_mapDocs, hd, Shape.mapDocs]
  have helement : cx.graph.Reachable root element.target :=
    hid.tail (TypeGraph.leadsUnnamed_element hget hd hj).leads
  refine recasts_unnamed id d ((hp.schema helement).map fun σ => ?_)
  rw [Schema.recast]

theorem recasts_mapSchema {key value : Edge} (hd : d.shape = .map key value) (hj : cx.graph.isJson d = false) :
    Derive.Recasts r (Schema.recast r) (Rule.mapSchema cx p id d) (Rule.mapSchema cx' p' id (d.mapDocs m)) := by
  simp only [Rule.mapSchema, Descriptor.shape_mapDocs, hd, Shape.mapDocs]
  rw [h.graph, TypeGraph.follow_mapDocs]
  refine (recasts_ofFault_map TypeGraph.nameless_of_follow).bind fun {_ k _} _ => ?_
  rw [Descriptor.isBasic_mapDocs]
  split
  · exact recasts_throw _
  · have hvalue : cx.graph.Reachable root value.target :=
      hid.tail (TypeGraph.leadsUnnamed_value hget hd hj).leads
    refine recasts_unnamed id d ((hp.schema hvalue).map fun σ => ?_)
    rw [Schema.recast]

/-- The rule that has a type recasts, if its parts are recast and names that alone are known stay. -/
theorem rule_recasts {rule : Rule} (hrule : cx.graph.ruleFor? d = some rule)
    (hforward : ∀ name, d.shape = .forward name → r.fullName name = name) :
    Derive.Recasts r (Schema.recast r) (rule.schema cx p id d) (rule.schema cx' p' id (d.mapDocs m)) := by
  unfold TypeGraph.ruleFor? at hrule
  cases hd : d.shape <;> simp only [hd] at hrule
  case basic kind =>
    cases kind with
    | any => cases hrule
    | _ => cases hrule; exact recasts_basicSchema h hd rfl
  case refined kind =>
    cases kind with
    | duration => cases hrule; exact recasts_durationSchema h
    | _ => cases hrule; exact recasts_logicalSchema h hd rfl
  case map key value =>
    cases hj : cx.graph.isJson d <;> simp only [hj] at hrule <;> cases hrule
    · exact recasts_mapSchema h hp hid hget hd hj
    · exact recasts_jsonSchema h
  case sequence element =>
    cases hj : cx.graph.isJson d <;> simp only [hj] at hrule <;> cases hrule
    · exact recasts_sequenceSchema hp hid hget hd hj
    · exact recasts_jsonSchema h
  all_goals cases hrule
  case namedString => exact recasts_namedStringSchema h
  case enum symbols => exact recasts_enumSchema h hd
  case record fs => exact recasts_recordSchema h hp hid hget hd
  case union members => exact recasts_unionSchema h hp hid hget hd
  case decimal params => exact recasts_decimalSchema
  case forward name => exact recasts_forwardSchema hd (hforward name hd)

end Composite

/-! ## Derivations -/

include h

theorem schemaWithin_recasts (hforward : ∀ {id d name}, cx.graph.Reachable root id → cx.graph.get? id = some d →
      d.shape = .forward name → r.fullName name = name) : ∀ (n : Nat) {id : TypeId}, cx.graph.Reachable root id →
    Derive.Recasts r (Schema.recast r) (RuleTable.standard.schemaWithin cx (RuleTable.standard.encode cx) n id)
      (RuleTable.standard.schemaWithin cx' (RuleTable.standard.encode cx') n id)
  | 0, _, _ => recasts_endless
  | n + 1, id, hid => by
    unfold RuleTable.schemaWithin
    rw [h.graph, TypeGraph.get?_mapDocs]
    cases hget : cx.graph.get? id with
    | none => exact recasts_throw (.type (.gone id))
    | some d =>
      simp only [Option.map_some, TypeGraph.find_mapDocs]
      refine (recasts_ofFault RuleTable.nameless_of_find).bind fun {_ rule _} hrule => ?_
      have hfor : cx.graph.ruleFor? d = some rule := RuleTable.standard_find_ok.mp (yields_ofFault.mp hrule).1
      have hparts : Parts.Recasts r cx.graph root
          ⟨RuleTable.standard.schemaWithin cx (RuleTable.standard.encode cx) n, RuleTable.standard.encode cx⟩
          ⟨RuleTable.standard.schemaWithin cx' (RuleTable.standard.encode cx') n, RuleTable.standard.encode cx'⟩ :=
        ⟨fun hid' => schemaWithin_recasts hforward n hid', h.encode_eq⟩
      exact rule_recasts h hparts hid hget hfor fun name hd => hforward hid hget hd

/-- **The schema of a type is recast**, and so is the error if it has none, where a namespace that is given is valid. -/
theorem derive_recasts (hforward : ∀ {id d name}, cx.graph.Reachable root id → cx.graph.get? id = some d →
      d.shape = .forward name → r.fullName name = name)
    (hgiven : cx'.givenNs = cx.givenNs ∨ cx.givenNs = none ∧ ∃ ns, cx'.givenNs = some ns ∧
      Name.checkNamespace ns = .ok ()) :
    RuleTable.standard.derive cx' root = r.result (Schema.recast r) (RuleTable.standard.derive cx root) := by
  have hdepth : RuleTable.depthBound cx'.graph = RuleTable.depthBound cx.graph := by
    simp only [RuleTable.depthBound, h.graph, TypeGraph.size_mapDocs]
  have hschema : Derive.Recasts r (Schema.recast r) (RuleTable.standard.schema cx root)
      (RuleTable.standard.schema cx' root) := by
    unfold RuleTable.schema
    rw [hdepth]
    exact schemaWithin_recasts h hforward _ .refl
  refine Derive.Recasts.result_eq (show Derive.Recasts r (Schema.recast r) _ _ from ?_)
  rcases hgiven with hsame | ⟨hnone, ns, hsome, hvalid⟩
  · rw [hsame]
    cases cx.givenNs with
    | none => exact hschema
    | some ns => exact (recasts_ofFault Name.nameless_of_checkNamespace).bind fun _ => hschema
  · rw [hnone, hsome]
    show Derive.Recasts r (Schema.recast r) _ (ofFault (Name.checkNamespace ns) >>= fun _ => _)
    rw [hvalid]
    exact hschema

end Avro
