import Avro.Proofs.Derivation.Dispatch
import Avro.Proofs.Graph.Members

/-!
# Rewriting documentation

`TypeGraph.mapDocs` rewrites the documentation of all types and fields of a graph and leaves the rest as it is. What is
read off a graph does not depend on documentation: the ends of edges, the members of unions (`flatMembers_mapDocs`), the
rules that take care of types (`find_mapDocs`) and the encodings of defaults (`EncodesLike.encode_eq`), which do not
depend on most options either.
-/

namespace Avro

/-! ## Graphs with other documentation -/

section Definitions

variable (m : Option String → Option String)

/-- The field with its documentation rewritten. -/
def Field.mapDoc (f : Field) : Field := { f with doc := m f.doc }

/-- The shape with the documentation of its fields rewritten. -/
def Shape.mapDocs : Shape → Shape
  | .record fs => .record (fs.map (Field.mapDoc m))
  | x => x

/-- The description with its documentation and that of its fields rewritten. -/
def Descriptor.mapDocs (d : Descriptor) : Descriptor := { d with doc := m d.doc, shape := d.shape.mapDocs m }

/-- The graph with all documentation rewritten. -/
def TypeGraph.mapDocs (g : TypeGraph) : TypeGraph := ⟨g.places.map (Option.map (Descriptor.mapDocs m))⟩

end Definitions

/-- The graph without any documentation. -/
def TypeGraph.undocumented (g : TypeGraph) : TypeGraph := g.mapDocs fun _ => none

variable {m : Option String → Option String} {g : TypeGraph} {d : Descriptor}

/-! ## Documentation that stays -/

theorem Shape.mapDocs_id (x : Shape) : x.mapDocs id = x := by
  cases x with
  | record fs =>
    have hfs : fs.map (Field.mapDoc id) = fs := List.map_id fs
    rw [Shape.mapDocs, hfs]
  | _ => rfl

theorem Descriptor.mapDocs_id (d : Descriptor) : d.mapDocs id = d := by
  rw [Descriptor.mapDocs, Shape.mapDocs_id]
  rfl

theorem TypeGraph.mapDocs_id (g : TypeGraph) : g.mapDocs id = g := by
  have hid : (Option.map (Descriptor.mapDocs id) : Option Descriptor → Option Descriptor) = id := by
    funext d?
    cases d? with
    | none => rfl
    | some d => exact congrArg some d.mapDocs_id
  rw [TypeGraph.mapDocs, hid, Array.map_id]

/-! ## Descriptions -/

namespace Descriptor

theorem shape_mapDocs : (d.mapDocs m).shape = d.shape.mapDocs m := rfl

theorem isBasic_mapDocs (kind : Basic) : (d.mapDocs m).isBasic kind = d.isBasic kind := by
  obtain ⟨name, origin, doc, shape⟩ := d
  cases shape <;> rfl

theorem label_mapDocs : (d.mapDocs m).label = d.label := by
  obtain ⟨name, origin, doc, shape⟩ := d
  cases shape <;> rfl

/-- A description is one of a union if and only if it is with other documentation. -/
theorem shape_mapDocs_eq_union {members : List Edge} : (d.mapDocs m).shape = .union members ↔ d.shape = .union members := by
  obtain ⟨name, origin, doc, shape⟩ := d
  cases shape <;> simp [Descriptor.mapDocs, Shape.mapDocs]

end Descriptor

/-! ## Types of the graph -/

namespace TypeGraph

@[simp] theorem get?_mapDocs (id : TypeId) : (g.mapDocs m).get? id = (g.get? id).map (Descriptor.mapDocs m) := by
  simp only [mapDocs, get?, Array.getElem?_map]
  cases g.places[id]? with
  | none => rfl
  | some d? => rfl

@[simp] theorem size_mapDocs : (g.mapDocs m).size = g.size := by simp [mapDocs, size]

theorem target?_mapDocs (e : Edge) : (g.mapDocs m).target? e = (g.target? e).map (Descriptor.mapDocs m) :=
  get?_mapDocs e.target

theorem nameOf_mapDocs (id : TypeId) : (g.mapDocs m).nameOf id = g.nameOf id := by
  simp only [nameOf, get?_mapDocs]
  cases g.get? id <;> rfl

theorem follow_mapDocs (e : Edge) : (g.mapDocs m).follow e = (g.follow e).map (Descriptor.mapDocs m) := by
  simp only [follow, target?_mapDocs]
  cases g.target? e <;> rfl

theorem isJsonObject_mapDocs : (g.mapDocs m).isJsonObject (d.mapDocs m) = g.isJsonObject d := by
  obtain ⟨name, origin, doc, shape⟩ := d
  cases shape with
  | map key value =>
    simp only [isJsonObject, Descriptor.mapDocs, Shape.mapDocs, target?_mapDocs]
    cases hk : g.target? key <;> cases hv : g.target? value <;>
      simp [Descriptor.isBasic_mapDocs]
  | _ => rfl

theorem isJsonArray_mapDocs : (g.mapDocs m).isJsonArray (d.mapDocs m) = g.isJsonArray d := by
  obtain ⟨name, origin, doc, shape⟩ := d
  cases shape with
  | sequence element =>
    simp only [isJsonArray, Descriptor.mapDocs, Shape.mapDocs, target?_mapDocs]
    cases he : g.target? element with
    | none => rfl
    | some e => exact isJsonObject_mapDocs
  | _ => rfl

theorem isJson_mapDocs : (g.mapDocs m).isJson (d.mapDocs m) = g.isJson d := by
  rw [isJson, isJson, isJsonObject_mapDocs, isJsonArray_mapDocs]

/-! ## Members of unions -/

theorem spliceInto_mapDocs (active out : List TypeId) (es : List Edge) :
    (g.mapDocs m).spliceInto active out es = g.spliceInto active out es := by
  fun_induction spliceInto g active out es with
  | case1 => rw [spliceInto]
  | case2 active out e es hd =>
    exact spliceInto_gone (by rw [target?_mapDocs, hd]; rfl)
  | case3 active out e es d hd inner hu hmem =>
    have hd' : (g.mapDocs m).target? e = some (d.mapDocs m) := by rw [target?_mapDocs, hd]; rfl
    rw [spliceInto_union hd' (Descriptor.shape_mapDocs_eq_union.mpr hu), if_pos hmem]
    rfl
  | case4 active out e es d hd inner hu hnew out₁ hsplice ih₂ ih₁ =>
    have hd' : (g.mapDocs m).target? e = some (d.mapDocs m) := by rw [target?_mapDocs, hd]; rfl
    rw [spliceInto_union hd' (Descriptor.shape_mapDocs_eq_union.mpr hu), if_neg hnew, ih₂, hsplice]
    exact ih₁
  | case5 active out e es d hd inner hu hnew f hsplice ih =>
    have hd' : (g.mapDocs m).target? e = some (d.mapDocs m) := by rw [target?_mapDocs, hd]; rfl
    rw [spliceInto_union hd' (Descriptor.shape_mapDocs_eq_union.mpr hu), if_neg hnew, ih, hsplice]
  | case6 active out e es d hd hu ih =>
    have hd' : (g.mapDocs m).target? e = some (d.mapDocs m) := by rw [target?_mapDocs, hd]; rfl
    rw [spliceInto_leaf hd' fun inner h => hu inner (Descriptor.shape_mapDocs_eq_union.mp h)]
    exact ih

theorem flatMembers_mapDocs (members : List Edge) : (g.mapDocs m).flatMembers members = g.flatMembers members :=
  spliceInto_mapDocs [] [] members

/-! ## Rules -/

theorem ruleFor?_mapDocs : (g.mapDocs m).ruleFor? (d.mapDocs m) = g.ruleFor? d := by
  have hj : (g.mapDocs m).isJson (d.mapDocs m) = g.isJson d := isJson_mapDocs
  obtain ⟨name, origin, doc, shape⟩ := d
  cases shape with
  | map key value => simp only [ruleFor?, hj]; rfl
  | sequence element => simp only [ruleFor?, hj]; rfl
  | _ => rfl

theorem find_mapDocs :
    RuleTable.standard.find (g.mapDocs m) (d.mapDocs m) = RuleTable.standard.find g d := by
  simp only [RuleTable.find, RuleTable.standard_find?, ruleFor?_mapDocs, Descriptor.label_mapDocs]

/-- What a default may be as long as does not depend on documentation. -/
theorem defaultsSize_mapDocs : (g.mapDocs m).defaultsSize = g.defaultsSize := by
  have hplace : ∀ d? : Option Descriptor, defaultsOf (d?.map (Descriptor.mapDocs m)) = defaultsOf d? := by
    intro d?
    cases d? with
    | none => rfl
    | some d =>
      obtain ⟨name, origin, doc, shape⟩ := d
      cases shape with
      | record fs =>
        show (fs.map (Field.mapDoc m)).foldr (fun f n => f.defaultSize + n) 0 = fs.foldr (fun f n => f.defaultSize + n) 0
        rw [List.foldr_map]
        rfl
      | _ => rfl
  simp only [defaultsSize, mapDocs, Array.toList_map, List.foldr_map, hplace]

end TypeGraph

/-! ## Encodings of defaults -/

/-- The graphs are the same but for documentation, and so are the options that encodings of defaults depend on. -/
structure Setting.EncodesLike (m : Option String → Option String) (cx cx' : Setting) : Prop where
  graph : cx'.graph = cx.graph.mapDocs m
  int32 : cx'.options.int32 = cx.options.int32
  inMillis : cx'.options.inMillis = cx.options.inMillis
  useFieldAlias : cx'.options.useFieldAlias = cx.options.useFieldAlias

namespace Setting.EncodesLike

variable {cx cx' : Setting} (h : cx.EncodesLike m cx')
include h

theorem fieldName_eq (f : Field) : cx'.fieldName (f.mapDoc m) = cx.fieldName f := by
  unfold Setting.fieldName
  rw [h.useFieldAlias]
  rfl

theorem choose_eq (encode : TypeId → Value → Encode Json) (flat : List TypeId) (v : Value) :
    Encode.choose cx'.graph encode flat v = Encode.choose cx.graph encode flat v := by
  have hnames : flat.map cx'.graph.nameOf = flat.map cx.graph.nameOf := by
    refine List.map_congr_left fun id _ => ?_
    rw [h.graph, TypeGraph.nameOf_mapDocs]
  rw [Encode.choose, Encode.choose, hnames]

theorem encodeFields_eq (encode : TypeId → Value → Encode Json) (es : List (String × Value)) (fs : List Field) :
    Rule.encodeFields cx' encode es (fs.map (Field.mapDoc m)) = Rule.encodeFields cx encode es fs := by
  induction fs with
  | nil => rfl
  | cons f fs ih =>
    have hgiven : Rule.givenValue? es (f.mapDoc m) = Rule.givenValue? es f := rfl
    simp only [List.map_cons, Rule.encodeFields, hgiven, h.fieldName_eq, ih]
    rfl

omit h in
theorem unknownKey?_eq (es : List (String × Value)) (fs : List Field) :
    Rule.unknownKey? (fs.map (Field.mapDoc m)) es = Rule.unknownKey? fs es := by
  simp only [Rule.unknownKey?, List.any_map]
  rfl

/-- A rule of the library encodes defaults of a type alike in both settings. -/
theorem rule_encode_eq (encode : TypeId → Value → Encode Json) (d : Descriptor) (v : Value) :
    ∀ r ∈ RuleTable.library, r.encode cx' encode (d.mapDocs m) v = r.encode cx encode d v := by
  have harray : cx'.graph.isJsonArray (d.mapDocs m) = cx.graph.isJsonArray d := by
    rw [h.graph, TypeGraph.isJsonArray_mapDocs]
  have hflat : ∀ members, cx'.graph.flatMembers members = cx.graph.flatMembers members := by
    intro members
    rw [h.graph, TypeGraph.flatMembers_mapDocs]
  apply RuleTable.library_cases
  case json => simp only [Rule.json, harray]
  all_goals obtain ⟨name, origin, doc, shape⟩ := d
  case basic =>
    cases shape with
    | basic kind => simp only [Rule.basic, Descriptor.mapDocs, Shape.mapDocs, Rule.encodeBasic, h.int32]
    | _ => rfl
  case logical =>
    cases shape with
    | refined kind => simp only [Rule.logical, Descriptor.mapDocs, Shape.mapDocs, Rule.encodeLogical, h.inMillis]
    | _ => rfl
  case union =>
    cases shape with
    | union members => simp only [Rule.union, Descriptor.mapDocs, Shape.mapDocs, Rule.encodeUnion, hflat, h.choose_eq]
    | _ => rfl
  case record =>
    cases shape with
    | record fs =>
      simp only [Rule.record, Descriptor.mapDocs, Shape.mapDocs, Rule.encodeRecord, unknownKey?_eq, h.encodeFields_eq]
    | _ => rfl
  all_goals cases shape <;> rfl

theorem encodeWithin_eq (n : Nat) :
    RuleTable.standard.encodeWithin cx' n = RuleTable.standard.encodeWithin cx n := by
  induction n with
  | zero => rfl
  | succ n ih =>
    funext id v
    simp only [RuleTable.encodeWithin, h.graph, TypeGraph.get?_mapDocs, ih]
    cases hget : cx.graph.get? id with
    | none => rfl
    | some d =>
      simp only [Option.map_some, TypeGraph.find_mapDocs]
      cases hr : RuleTable.standard.find cx.graph d with
      | error f => rfl
      | ok r => exact h.rule_encode_eq _ d v r (RuleTable.ofLibrary_standard.of_find hr)

/-- **Defaults are encoded alike, whatever the documentation and the other options.** -/
theorem encode_eq : RuleTable.standard.encode cx' = RuleTable.standard.encode cx := by
  funext id v
  have hbound : RuleTable.encodeBound cx'.graph v = RuleTable.encodeBound cx.graph v := by
    simp only [RuleTable.encodeBound, h.graph, TypeGraph.defaultsSize_mapDocs]
  simp only [RuleTable.encode, hbound, h.encodeWithin_eq]

end Setting.EncodesLike
end Avro
