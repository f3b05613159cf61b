import Avro.Proofs.Derivation.Fields
import Avro.Proofs.Recast.Docs
import Avro.Proofs.Recast.Schema
import Avro.Proofs.Termination.Agreement

/-!
# Derivations in settings that show other names and documentation

Of two steps the second recasts the first (`Derive.Recasts`) if from progress that is recast it does the same: it has no
end, or the recast result and the recast progress. If full names stay distinct, the registries make the same decisions
(`Progress.claim_recast`), so occurrences of types are recast if their definitions and parts are (`recasts_namedSchema`,
`recasts_unnamed`). `Setting.Recasts` says when one setting shows what another does, recast.
-/

namespace Avro

/-! ## Results -/

namespace Recast

variable {α β : Type} (r : Recast) (f : α → β)

/-- What is recast by `f`, or the recast error. -/
def result : Except SchemaError α → Except SchemaError β
  | .ok a => .ok (f a)
  | .error e => .error (e.recast r)

/-- The recast result and the recast progress behind it. -/
def outcome (p : Except SchemaError α × Progress) : Except SchemaError β × Progress := (r.result f p.1, p.2.recast r)

end Recast

/-- The occurrence with the other namespaces, full names and documentation. -/
def Occurrence.recast (r : Recast) : Occurrence Schema → Occurrence Schema
  | .definition σ => .definition (σ.recast r)
  | .reference fullName => .reference (r.fullName fullName)

/-! ## The registry -/

/-- The registry makes the same decision about recast names, as long as distinct names are recast to distinct ones. -/
theorem Progress.claim_recast {r : Recast} (hr : Function.Injective r.fullName) (s : Progress) (id : TypeId)
    (fullName : String) : (s.recast r).registry.claim id (r.fullName fullName) =
      match s.registry.claim id fullName with
      | .ok (c, registry) => .ok (c.recast r, ({ s with registry }.recast r).registry)
      | .error f => .error (f.recast r) := by
  have hname : (s.recast r).registry.nameOf? id = (s.registry.nameOf? id).map r.fullName := by
    simp only [Progress.recast, Registry.nameOf?, List.find?_map, Option.map_map]
    rfl
  have howner : (s.recast r).registry.ownerOf? (r.fullName fullName) = s.registry.ownerOf? fullName := by
    have hsame : (fun e : TypeId × String => r.fullName e.2 == r.fullName fullName) = fun e => e.2 == fullName := by
      funext e
      rw [Bool.eq_iff_iff, beq_iff_eq, beq_iff_eq]
      exact hr.eq_iff
    simp only [Progress.recast, Registry.ownerOf?, List.find?_map, Option.map_map]
    show Option.map _ (s.registry.entries.find? fun e => r.fullName e.2 == r.fullName fullName) = _
    rw [hsame]
    rfl
  unfold Registry.claim
  rw [hname, howner]
  cases s.registry.nameOf? id with
  | some known => rfl
  | none =>
    cases s.registry.ownerOf? fullName with
    | some owner => rfl
    | none =>
      show Except.ok (_, (⟨_⟩ : Registry)) = .ok (_, ⟨_⟩)
      rw [List.map_append]
      rfl

/-! ## Settings -/

/-- The second setting shows what the first shows, recast, of a graph with documentation rewritten by `m`. -/
structure Setting.Recasts (r : Recast) (m : Option String → Option String) (cx cx' : Setting) : Prop
    extends cx.EncodesLike m cx' where
  float32 : cx'.options.float32 = cx.options.float32
  jsonEncoding : cx'.options.jsonEncoding = cx.options.jsonEncoding
  defaultsMandatory : cx'.options.defaultsMandatory = cx.options.defaultsMandatory
  namespaceOf : ∀ d, cx'.namespaceOf d = (cx.namespaceOf d).map r.ns
  full : ∀ {d ns}, cx.namespaceOf d = .ok ns → Name.full (r.ns ns) d.name = r.fullName (Name.full ns d.name)
  inj : Function.Injective r.fullName
  typeDoc : ∀ doc, cx'.typeDoc (m doc) = r.doc (cx.typeDoc doc)
  fieldDoc : ∀ doc, cx'.fieldDoc (m doc) = r.doc (cx.fieldDoc doc)

namespace Derive

variable {α β γ δ : Type} {r : Recast}

/-- From recast progress, the second step does what the first does, recast. -/
def Recasts (r : Recast) (f : α → β) (x : Derive α) (y : Derive β) : Prop :=
  ∀ s, y.runFrom (s.recast r) = (x.runFrom s).map (r.outcome f)

section Monad

variable {f : α → β} {g : γ → δ}

/-! ## Putting steps together -/

theorem recasts_pure (a : α) : Recasts r f (pure a) (pure (f a)) := fun _ => rfl

theorem recasts_throw (e : SchemaError) : Recasts r f (throw e) (throw (e.recast r)) := fun _ => rfl

theorem recasts_endless : Recasts r f endless endless := fun _ => rfl

theorem recasts_get : Recasts r (Progress.recast r) get get := fun _ => rfl

/-- Steps after steps are recast if they are from what the steps before yield. -/
theorem Recasts.bind {x : Derive α} {y : Derive β} {k : α → Derive γ} {l : β → Derive δ} (h : Recasts r f x y)
    (hkl : ∀ {s a t}, x.Yields s a t → Recasts r g (k a) (l (f a))) : Recasts r g (x >>= k) (y >>= l) := by
  intro s
  rw [runFrom_bind, runFrom_bind, h s]
  cases hx : x.runFrom s with
  | none => rfl
  | some p =>
    obtain ⟨res, t⟩ := p
    cases res with
    | error e => rfl
    | ok a => exact hkl hx t

theorem Recasts.map {x : Derive α} {y : Derive β} (h : Recasts r f x y) {a : α → γ} {b : β → δ}
    (hab : ∀ c, b (f c) = g (a c)) : Recasts r g (a <$> x) (b <$> y) := by
  rw [map_eq_pure_bind, map_eq_pure_bind]
  refine h.bind fun {_ c _} _ => ?_
  rw [hab]
  exact recasts_pure (a c)

/-- Failures because of a type stay as they are if the fault does not tell a full name. -/
theorem recasts_ofFault_map {x : Except TypeFault α} (h : ∀ {e}, x = .error e → e.Nameless) :
    Recasts r f (ofFault x) (ofFault (x.map f)) := by
  cases x with
  | ok a => exact recasts_pure a
  | error e =>
    have hthrow : Recasts r f (throw (.type e)) (throw (.type (e.recast r))) := recasts_throw (.type e)
    rw [h rfl] at hthrow
    exact hthrow

theorem recasts_ofFault {x : Except TypeFault α} (h : ∀ {e}, x = .error e → e.Nameless) :
    Recasts r id (ofFault x) (ofFault x) := by
  have hmap : x.map id = x := by cases x <;> rfl
  have hx : Recasts r id (ofFault x) (ofFault (x.map id)) := recasts_ofFault_map h
  rw [hmap] at hx
  exact hx

/-- Defaults are encoded as they were. -/
theorem recasts_ofEncode (field : String) (e : Encode α) : Recasts r id (ofEncode field e) (ofEncode field e) := by
  have hattempt : Recasts r id (attempt e) (attempt e) := by
    intro s
    show e.outcome.map _ = (e.outcome.map _).map _
    cases e.outcome <;> rfl
  refine hattempt.bind fun {_ res _} _ => ?_
  cases res with
  | ok a => exact recasts_pure a
  | error m => exact recasts_throw _

theorem Recasts.withPending {x : Derive α} {y : Derive β} (h : Recasts r f x y) (pending : List TypeId) :
    Recasts r f (withPending pending x) (withPending pending y) := by
  intro s
  show (y.runFrom ({ s with pending }.recast r)).map _ = ((x.runFrom { s with pending }).map _).map _
  rw [h]
  cases x.runFrom { s with pending } <;> rfl

/-- From the start, the second step has the recast result of the first. -/
theorem Recasts.result_eq {x : Derive α} {y : Derive β} (h : Recasts r f x y) : y.result = r.result f x.result := by
  have hstart : y.runFrom {} = (x.runFrom {}).map (r.outcome f) := h {}
  unfold result
  rw [hstart]
  cases x.runFrom {} <;> rfl

end Monad

/-! ## Occurrences of types -/

variable {m : Option String → Option String} {cx cx' : Setting}

theorem recasts_claim (hr : Function.Injective r.fullName) (id : TypeId) (fullName : String) :
    Recasts r (Claim.recast r) (claim id fullName) (claim id (r.fullName fullName)) := by
  intro s
  rw [runFrom_claim, runFrom_claim, Progress.claim_recast hr]
  cases s.registry.claim id fullName <;> rfl

section Occurrences

variable (h : cx.Recasts r m cx') (id : TypeId) (d : Descriptor)
include h

omit id in
theorem recasts_namespaceOf :
    Recasts r r.ns (ofFault (cx.namespaceOf d)) (ofFault (cx'.namespaceOf (d.mapDocs m))) := by
  have hns : cx'.namespaceOf (d.mapDocs m) = (cx.namespaceOf d).map r.ns := h.namespaceOf d
  rw [hns]
  exact recasts_ofFault_map Setting.nameless_of_namespaceOf

/-- Occurrences of named types are recast if their definitions are, under the recast full names. -/
theorem recasts_namedSchema {body body' : Header → Derive Schema}
    (hbody : ∀ header : Header, (header.recast r).fullName = r.fullName header.fullName →
      Recasts r (Schema.recast r) (body header) (body' (header.recast r))) :
    Recasts r (Schema.recast r) (namedSchema cx id d body) (namedSchema cx' id (d.mapDocs m) body') := by
  have hnamed : Recasts r (Occurrence.recast r) (named cx id d body) (named cx' id (d.mapDocs m) body') := by
    refine (recasts_ofFault Name.nameless_of_check).bind fun _ => ?_
    refine (recasts_namespaceOf h d).bind fun {_ ns _} hns => ?_
    have hfull : Name.full (r.ns ns) d.name = r.fullName (Name.full ns d.name) :=
      h.full (yields_ofFault.mp hns).1
    have hclaim := recasts_claim h.inj id (Name.full ns d.name)
    rw [← hfull] at hclaim
    refine hclaim.bind fun {_ c _} _ => ?_
    cases c with
    | known fullName => exact recasts_pure (Occurrence.reference fullName)
    | fresh =>
      have hheader : (⟨⟨d.name, r.ns ns⟩, cx'.typeDoc (m d.doc)⟩ : Header) =
          Header.recast r ⟨⟨d.name, ns⟩, cx.typeDoc d.doc⟩ := by
        rw [h.typeDoc]
        rfl
      show Recasts r _ _ (Occurrence.definition <$> withPending [] (body' ⟨⟨d.name, r.ns ns⟩, cx'.typeDoc (m d.doc)⟩))
      rw [hheader]
      exact ((hbody ⟨⟨d.name, ns⟩, _⟩ hfull).withPending []).map fun _ => rfl
  refine hnamed.bind fun {_ o _} _ => ?_
  cases o with
  | definition σ => exact recasts_pure σ
  | reference fullName => exact recasts_pure (Schema.reference fullName)

omit h in
/-- Occurrences of composite types are recast if their parts are. -/
theorem recasts_unnamed {x y : Derive Schema} (hxy : Recasts r (Schema.recast r) x y) :
    Recasts r (Schema.recast r) (unnamed id d x) (unnamed id (d.mapDocs m) y) := by
  refine recasts_get.bind fun {_ s _} _ => ?_
  show Recasts r _ (if id ∈ s.pending then _ else _) (if id ∈ s.pending then _ else _)
  split
  · exact recasts_throw _
  · exact hxy.withPending _

end Occurrences

end Derive

/-! ## Parts -/

/-- Of all types that can be reached, defaults are encoded alike, and the derivations of the schemas are recast. -/
structure Parts.Recasts (r : Recast) (g : TypeGraph) (root : TypeId) (p p' : Parts) : Prop where
  schema : ∀ {id}, g.Reachable root id → Derive.Recasts r (Schema.recast r) (p.schema id) (p'.schema id)
  encode : p'.encode = p.encode

namespace Derive

section Parts

variable {r : Recast} {m : Option String → Option String} {cx cx' : Setting} {p p' : Parts} {root : TypeId}
  (hp : Parts.Recasts r cx.graph root p p')
include hp

theorem recasts_schemas : ∀ {ids : List TypeId}, (∀ id ∈ ids, cx.graph.Reachable root id) →
    Recasts r (List.map (Schema.recast r)) (schemas p ids) (schemas p' ids)
  | [], _ => recasts_pure []
  | id :: ids, hids => by
    refine (hp.schema (hids id List.mem_cons_self)).bind fun {_ σ _} _ => ?_
    have hrest := recasts_schemas fun id' hid' => hids id' (List.mem_cons_of_mem id hid')
    exact hrest.bind fun {_ σs _} _ => recasts_pure (σ :: σs)

theorem recasts_unionOf {ids : List TypeId} (hids : ∀ id ∈ ids, cx.graph.Reachable root id) :
    Recasts r (Schema.recast r) (unionOf p ids) (unionOf p' ids) :=
  (recasts_schemas hp hids).map fun σs => by rw [Schema.recast, Schema.recastMembers_eq]

/-! ## Fields -/

variable {f : Field} {d : Descriptor}

theorem recasts_shownDefault (name : String) :
    Recasts r id (p.shownDefault name f) (p'.shownDefault name (f.mapDoc m)) := by
  show Recasts r id (p.shownDefault name f) (p'.shownDefault name f)
  unfold Parts.shownDefault
  rw [hp.encode]
  cases f.default with
  | none => exact recasts_pure none
  | some v => exact (recasts_ofEncode name _).map fun _ => rfl

variable (h : cx.Recasts r m cx') (hf : cx.graph.Reachable root f.type.target)
include h hf

theorem recasts_fieldType (hget : cx.graph.get? f.type.target = some d) (name : String) :
    Recasts r (fun q => (q.1.recast r, q.2)) (fieldType cx p name f d)
      (fieldType cx' p' name (f.mapDoc m) (d.mapDocs m)) := by
  by_cases hs : f.Splices d
  · obtain ⟨hsome, members, hu⟩ := hs
    obtain ⟨v, hv⟩ := Option.isSome_iff_exists.mp hsome
    have hu' : (d.mapDocs m).shape = .union members := Descriptor.shape_mapDocs_eq_union.mpr hu
    rw [fieldType_of_union hv hu, fieldType_of_union (f := f.mapDoc m) hv hu', h.graph,
      TypeGraph.flatMembers_mapDocs, hp.encode]
    refine (recasts_ofFault TypeGraph.nameless_of_spliceInto).bind fun {_ flat _} hflat => ?_
    obtain ⟨hflat, -⟩ := yields_ofFault.mp hflat
    have hchoose : Encode.choose (cx.graph.mapDocs m) p.encode flat v = Encode.choose cx.graph p.encode flat v := by
      rw [← h.graph]
      exact h.choose_eq p.encode flat v
    rw [id, hchoose]
    refine (recasts_ofEncode name _).bind fun {_ c _} hc => ?_
    obtain ⟨before, after, hsplit, hothers, -⟩ := Encode.choose_ok_iff.mp (yields_ofEncode.mp hc).1
    have horder : ∀ id ∈ c.order, cx.graph.Reachable root id := by
      intro id hid
      refine hf.trans (TypeGraph.reachable_of_mem_flatMembers hget hu hflat ?_)
      rw [Choice.order, hothers] at hid
      rw [hsplit]
      simpa [or_left_comm] using hid
    exact (recasts_unionOf hp horder).map fun _ => rfl
  · have hs' : ¬ (f.mapDoc m).Splices (d.mapDocs m) := by
      rintro ⟨hsome, members, hu⟩
      exact hs ⟨hsome, members, Descriptor.shape_mapDocs_eq_union.mp hu⟩
    rw [fieldType_of_not_splices hs, fieldType_of_not_splices hs']
    refine (hp.schema hf).bind fun {_ σ _} _ => ?_
    exact (recasts_shownDefault hp name).map fun _ => rfl

theorem recasts_field : Recasts r (SchemaField.recast r) (field cx p f) (field cx' p' (f.mapDoc m)) := by
  rw [field_eq, field_eq, h.fieldName_eq, h.defaultsMandatory, h.graph]
  refine (recasts_ofFault Name.nameless_of_check).bind fun _ => ?_
  have hcheck : Recasts r id
      (if cx.options.defaultsMandatory && f.default.isNone then
        throw (.invalidDefault (cx.fieldName f) (.here .noDefault)) else pure () : Derive Unit)
      (if cx.options.defaultsMandatory && f.default.isNone then
        throw (.invalidDefault (cx.fieldName f) (.here .noDefault)) else pure ()) := by
    split
    · exact recasts_throw _
    · exact recasts_pure ()
  refine hcheck.bind fun _ => ?_
  have hfollow : (cx.graph.mapDocs m).follow (f.mapDoc m).type = (cx.graph.follow f.type).map (Descriptor.mapDocs m) :=
    TypeGraph.follow_mapDocs f.type
  rw [hfollow]
  refine (recasts_ofFault_map TypeGraph.nameless_of_follow).bind fun {_ d _} hd => ?_
  have hget : cx.graph.get? f.type.target = some d := TypeGraph.follow_ok.mp (yields_ofFault.mp hd).1
  refine (recasts_fieldType hp h hf hget _).map fun q => ?_
  show (⟨cx.fieldName f, q.1.recast r, cx'.fieldDoc (m f.doc), q.2⟩ : SchemaField Schema) = _
  rw [h.fieldDoc]
  rfl

omit hf in
theorem recasts_fields (record : String) : ∀ (taken : List String) {fs : List Field},
    (∀ f ∈ fs, cx.graph.Reachable root f.type.target) →
      Recasts r (List.map (SchemaField.recast r)) (fields cx p record taken fs)
        (fields cx' p' (r.fullName record) taken (fs.map (Field.mapDoc m)))
  | _, [], _ => recasts_pure []
  | taken, f :: fs, hfs => by
    refine (recasts_field hp h (hfs f List.mem_cons_self)).bind fun {_ s _} _ => ?_
    show Recasts r _ (if s.name ∈ taken then _ else _) (if s.name ∈ taken then _ else _)
    split
    · exact recasts_throw _
    · have hrest := recasts_fields record (s.name :: taken) fun f' hf' => hfs f' (List.mem_cons_of_mem f hf')
      exact hrest.bind fun {_ ss _} _ => recasts_pure (s :: ss)

end Parts

end Derive
end Avro
