import Avro.Proofs.Derivation.Choice
import Avro.Proofs.Termination.Agreement
import Avro.Proofs.Termination.Endless
import Mathlib

/-!
# Derivations end

If no default falls back on itself, a derivation that may go deep enough ends, with a schema or with an error, and how
much deeper it may go makes no difference (`derive_ends`). How deep is enough is computed from the number of types and
from the defaults of the graph (`RuleTable.fuelBound`). No other graphs are left out but those with a default whose
encoding has no end (`defaultsEnd_iff`).
-/

namespace Avro

open Relation RuleTable

/-! ## Derivations of limited depth -/

namespace RuleTable

/-- How deep the encoding of any default of a field may go. -/
def defaultsBound (g : TypeGraph) : Nat := 2 * (g.defaultsSize + g.defaultsSize) + 2

/-- How deep a derivation and the encodings of defaults in it may go. -/
def fuelBound (g : TypeGraph) : Nat := max (depthBound g) (defaultsBound g)

/-- Derives the schema of a type, where neither types nor defaults are followed more than so deep. -/
def deriveWithin (t : RuleTable) (cx : Setting) (n : Nat) (id : TypeId) : Option (Except SchemaError Schema) :=
  let step : Derive Schema := do
    match cx.givenNs with
    | some ns => Derive.ofFault (Name.checkNamespace ns)
    | none => pure ()
    t.schemaWithin cx (t.encodeWithin cx n) n id
  (step.runFrom {}).map Prod.fst

end RuleTable

/-! ## Encodings of defaults -/

namespace Encode

variable {α β : Type} {e e' : Encode α}

theorem Refines.eq_of_ends (h : e.Refines e') (he : e.Ends) : e' = e := by
  obtain ⟨r, hr⟩ := he
  exact (h r hr).trans hr.symm

end Encode

section Defaults

variable {cx : Setting} {root id : TypeId} {f : Field} {v : Value} {depth : Nat}

/-- As deep as that, a default of a field has the outcome for each type that it has at all. -/
theorem encode_refines_encodeWithin (hdepth : defaultsBound cx.graph ≤ depth) (hf : f ∈ cx.graph.fieldsOf id)
    (hv : f.default = some v) (m : TypeId) :
    (standard.encode cx m v).Refines (standard.encodeWithin cx depth m v) := by
  obtain ⟨d, fs, hget, hd, hf⟩ := TypeGraph.mem_fieldsOf hf
  have hsize : f.defaultSize ≤ cx.graph.defaultsSize := defaultSize_le (TypeGraph.mem_allFields hget hd hf)
  rw [show f.defaultSize = v.size by simp only [Field.defaultSize, hv]] at hsize
  refine encodeWithin_mono ofLibrary_standard (Nat.le_trans ?_ hdepth)
  unfold encodeBound defaultsBound
  omega

/-- Where the encoding of a default of a union ends, the member for it is found. -/
theorem ends_choose_of_encode {d : Descriptor} {members : List Edge} {flat : List TypeId}
    (hget : cx.graph.get? id = some d) (hd : d.shape = .union members) (hflat : cx.graph.flatMembers members = .ok flat)
    (h : (standard.encode cx id v).Ends) : (Encode.choose cx.graph (standard.encode cx) flat v).Ends := by
  rw [encode_eq hget (TypeGraph.ruleFor?_union hd)] at h
  simp only [Rule.union, hd, Rule.encodeUnion, hflat] at h
  exact h.of_bind

end Defaults

/-! ## Types without parts -/

section Leaves

open Derive

variable {cx : Setting} {id : TypeId} {d : Descriptor} {s : Progress}

theorem agree_basicSchema (o : Options) : Agree s (Rule.basicSchema o d) (Rule.basicSchema o d) := by
  unfold Rule.basicSchema
  split
  · split
    · exact agree_pure _
    · exact agree_throw _
  · exact agree_throw _

theorem agree_logicalSchema (o : Options) : Agree s (Rule.logicalSchema o d) (Rule.logicalSchema o d) := by
  unfold Rule.logicalSchema
  split
  · split
    · exact agree_pure _
    · exact agree_throw _
  · exact agree_throw _

theorem agree_namedStringSchema : Agree s (Rule.namedStringSchema cx d) (Rule.namedStringSchema cx d) :=
  (agree_ofFault _).bind fun _ => (agree_ofFault _).bind fun _ => agree_pure _

theorem agree_forwardSchema : Agree s (Rule.forwardSchema d) (Rule.forwardSchema d) := by
  unfold Rule.forwardSchema
  split
  · split
    · exact agree_throw _
    · exact (agree_ofFault _).bind fun _ => agree_pure _
  · exact agree_throw _

theorem agree_enumSchema : Agree s (Rule.enumSchema cx id d) (Rule.enumSchema cx id d) := by
  unfold Rule.enumSchema
  split
  · refine agree_namedSchema fun _ _ _ _ => (agree_ofFault _).bind fun symbols => ?_
    cases symbols with
    | nil => exact agree_throw _
    | cons x xs => exact agree_pure _
  · exact agree_throw _

end Leaves

/-! ## Types with parts -/

section Rules

open Derive

/-- Derivations of all types that can be reached agree where there is the depth for them. -/
def AgreeBelow (cx : Setting) (root : TypeId) (n : Nat) (schema schema' : TypeId → Derive Schema) : Prop :=
  ∀ ⦃s id⦄, cx.graph.Reachable root id → s.HasDepth cx.graph n → Agree s (schema id) (schema' id)

variable {cx : Setting} {root id : TypeId} {d : Descriptor} {s : Progress} {n : Nat}

section Composite

variable {p p' : Parts} (hschema : AgreeBelow cx root n p.schema p'.schema)
variable (hs : s.HasDepth cx.graph (n + 1)) (hreach : cx.graph.Reachable root id) (hget : cx.graph.get? id = some d)
include hschema hs hreach hget

theorem agree_unionSchema : Agree s (Rule.unionSchema cx p id d) (Rule.unionSchema cx p' id d) := by
  unfold Rule.unionSchema
  split
  · rename_i members hd
    refine agree_unnamed fun hst hnew => ?_
    have hinner := (hs.of_before hst).pend (TypeGraph.lt_size_of_get? hget) hnew
    refine (agree_ofFault _).bind_of_yields fun {t flat u} hbefore hyields => ?_
    obtain ⟨hflat, rfl⟩ := yields_ofFault.mp hyields
    refine agree_unionOf fun m hm => ?_
    have hmember := TypeGraph.reachable_of_mem_flatMembers hget hd hflat hm
    exact hschema (hreach.trans hmember) (hinner.of_before hbefore)
  · exact agree_throw _

theorem agree_sequenceSchema (hj : cx.graph.isJson d = false) :
    Agree s (Rule.sequenceSchema p id d) (Rule.sequenceSchema p' id d) := by
  unfold Rule.sequenceSchema
  split
  · rename_i element hd
    refine agree_unnamed fun hst hnew => ?_
    have hinner := (hs.of_before hst).pend (TypeGraph.lt_size_of_get? hget) hnew
    have hlead := TypeGraph.leadsUnnamed_element hget hd hj
    exact (hschema (hreach.tail hlead.leads) hinner).map _
  · exact agree_throw _

theorem agree_mapSchema (hj : cx.graph.isJson d = false) :
    Agree s (Rule.mapSchema cx p id d) (Rule.mapSchema cx p' id d) := by
  unfold Rule.mapSchema
  split
  · rename_i key value hd
    refine (agree_ofFault _).bind fun k => ?_
    split
    · exact agree_throw _
    · refine agree_unnamed fun hst hnew => ?_
      have hinner := (hs.of_before hst).pend (TypeGraph.lt_size_of_get? hget) hnew
      have hlead := TypeGraph.leadsUnnamed_value hget hd hj
      exact (hschema (hreach.tail hlead.leads) hinner).map _
  · exact agree_throw _

end Composite

variable {schema schema' : TypeId → Derive Schema} {depth : Nat}
variable (hends : cx.DefaultsEnd root) (hdepth : defaultsBound cx.graph ≤ depth)
variable (hschema : AgreeBelow cx root n schema schema')
include hends hdepth hschema

theorem agree_fieldType {name : String} {f : Field} (hs : s.HasDepth cx.graph n) (hreach : cx.graph.Reachable root id)
    (hf : f ∈ cx.graph.fieldsOf id) (hget : cx.graph.get? f.type.target = some d) :
    Agree s (fieldType cx (cx.partsBy schema) name f d)
      (fieldType cx ⟨schema', standard.encodeWithin cx depth⟩ name f d) := by
  obtain ⟨r, fs, hget', hr, hmem⟩ := TypeGraph.mem_fieldsOf hf
  have htarget : cx.graph.Reachable root f.type.target := hreach.tail (TypeGraph.leads_field hget' hr hmem)
  have htype : Agree s (schema f.type.target) (schema' f.type.target) := hschema htarget hs
  unfold fieldType
  cases hv : f.default with
  | none => exact htype.bind fun _ => agree_pure _
  | some v =>
    have hencode := hends ⟨(id, f), hreach, hf⟩ hv
    have hrefines := encode_refines_encodeWithin hdepth hf hv
    cases hd : d.shape with
    | union members =>
      refine (agree_ofFault _).bind_of_yields fun {t flat u} hst hyields => ?_
      obtain ⟨hflat, rfl⟩ := yields_ofFault.mp hyields
      have hchoose := ends_choose_of_encode hget hd hflat hencode
      show Agree u (ofEncode name (Encode.choose cx.graph (standard.encode cx) flat v) >>= _)
        (ofEncode name (Encode.choose cx.graph (standard.encodeWithin cx depth) flat v) >>= _)
      rw [(choose_refines fun m _ => hrefines m).eq_of_ends hchoose]
      refine (agree_ofEncode hchoose name).bind_of_yields fun {t' c w} hut hyields => ?_
      obtain ⟨hc, rfl⟩ := yields_ofEncode.mp hyields
      refine (agree_unionOf fun m hm => ?_).bind fun _ => agree_pure _
      have hmember := TypeGraph.reachable_of_mem_flatMembers hget hd hflat ((orderFor_choose hc).mem.mp hm)
      exact hschema (htarget.trans hmember) (hs.of_before (hst.trans hut))
    | _ =>
      refine htype.bind fun σ => ?_
      show Agree s (ofEncode name (standard.encode cx f.type.target v) >>= _)
        (ofEncode name (standard.encodeWithin cx depth f.type.target v) >>= _)
      rw [(hrefines f.type.target).eq_of_ends hencode]
      exact (agree_ofEncode hencode name).bind fun _ => agree_pure _

theorem agree_field {f : Field} (hs : s.HasDepth cx.graph n) (hreach : cx.graph.Reachable root id)
    (hf : f ∈ cx.graph.fieldsOf id) :
    Agree s (field cx (cx.partsBy schema) f) (field cx ⟨schema', standard.encodeWithin cx depth⟩ f) := by
  refine (agree_ofFault _).bind fun _ => ?_
  split
  · exact (agree_throw _).bind_of_yields fun _ hyields => absurd hyields yields_throw
  · refine (agree_ofFault _).bind_of_yields fun {t d u} hst hyields => ?_
    obtain ⟨hd, rfl⟩ := yields_ofFault.mp hyields
    have hget := TypeGraph.follow_ok.mp hd
    exact (agree_fieldType hends hdepth hschema (hs.of_before hst) hreach hf hget).bind fun _ => agree_pure _

theorem agree_recordSchema (hs : s.HasDepth cx.graph (n + 1)) (hreach : cx.graph.Reachable root id)
    (hget : cx.graph.get? id = some d) :
    Agree s (Rule.recordSchema cx (cx.partsBy schema) id d)
      (Rule.recordSchema cx ⟨schema', standard.encodeWithin cx depth⟩ id d) := by
  unfold Rule.recordSchema
  split
  · rename_i fs hd
    refine agree_namedSchema fun header fullName hst hnew => ?_
    have hinner := (hs.of_before hst).define (TypeGraph.lt_size_of_get? hget) hnew fullName
    refine (agree_fields fun f hf => ?_).bind fun _ => agree_pure _
    rw [← TypeGraph.fieldsOf_eq hget hd] at hf
    exact agree_field hends hdepth hschema hinner hreach hf
  · exact agree_throw _

/-- Derivations by a rule agree if those of the parts of the type do, with less depth. -/
theorem agree_rule {r : Rule} (hs : s.HasDepth cx.graph (n + 1)) (hreach : cx.graph.Reachable root id)
    (hget : cx.graph.get? id = some d) (hr : cx.graph.ruleFor? d = some r) :
    Agree s (r.schema cx (cx.partsBy schema) id d) (r.schema cx ⟨schema', standard.encodeWithin cx depth⟩ id d) := by
  unfold TypeGraph.ruleFor? at hr
  split at hr
  case h_1 => cases hr
  case h_2 => cases hr; exact agree_basicSchema _
  case h_3 => cases hr; exact agree_namedSchema fun _ _ _ _ => agree_pure _
  case h_4 => cases hr; exact agree_logicalSchema _
  case h_5 => cases hr; exact agree_namedStringSchema
  case h_6 => cases hr; exact agree_enumSchema
  case h_7 => cases hr; exact agree_recordSchema hends hdepth hschema hs hreach hget
  case h_8 => cases hr; exact agree_unionSchema hschema hs hreach hget
  case h_9 =>
    split at hr <;> cases hr
    · exact agree_pure _
    · rename_i hj
      exact agree_mapSchema hschema hs hreach hget (by simpa using hj)
  case h_10 =>
    split at hr <;> cases hr
    · exact agree_pure _
    · rename_i hj
      exact agree_sequenceSchema hschema hs hreach hget (by simpa using hj)
  case h_11 => cases hr; exact (agree_ofFault _).bind fun _ => agree_pure _
  case h_12 => cases hr; exact agree_forwardSchema

omit hschema in
/-- A derivation that is deep enough, and one that is deeper and encodes defaults deep enough, agree. -/
theorem agreeBelow : ∀ {n m : Nat}, n ≤ m →
    AgreeBelow cx root n (standard.schemaWithin cx (standard.encode cx) n)
      (standard.schemaWithin cx (standard.encodeWithin cx depth) m)
  | 0, _, _ => fun _ _ _ hs => absurd hs Progress.not_hasDepth_zero
  | n + 1, m + 1, hnm => by
    intro s id hreach hs
    unfold schemaWithin
    cases hget : cx.graph.get? id with
    | none => exact agree_throw _
    | some d =>
      refine (agree_ofFault _).bind_of_yields fun {t r u} hst hyields => ?_
      obtain ⟨hr, rfl⟩ := yields_ofFault.mp hyields
      have hparts := agreeBelow (Nat.le_of_succ_le_succ hnm)
      exact agree_rule hends hdepth hparts (hs.of_before hst) hreach hget (standard_find_ok.mp hr)

end Rules

/--
**If no default falls back on itself, a derivation ends**: as deep as the bound and deeper it has one and the same
outcome, a schema or an error.
-/
theorem derive_ends {cx : Setting} {root : TypeId} (h : cx.NoSelfFallback root) {n : Nat}
    (hn : fuelBound cx.graph ≤ n) : standard.deriveWithin cx n root = some (standard.derive cx root) := by
  have hends : cx.DefaultsEnd root := defaultsEnd h
  have hagree : Derive.Agree {} (standard.schema cx root)
      (standard.schemaWithin cx (standard.encodeWithin cx n) n root) :=
    agreeBelow hends (Nat.le_trans (Nat.le_max_right _ _) hn) (Nat.le_trans (Nat.le_max_left _ _) hn) .refl
      Progress.hasDepth_start
  unfold deriveWithin derive
  cases cx.givenNs with
  | none => exact hagree.result
  | some ns => exact ((Derive.agree_ofFault _).bind fun _ => hagree).result

/-! ## A way -/

/-- Points of a way, each with the next one if there is one; a point of which nothing is said is at the start. -/
def waypoints : Setting :=
  .of ⟨#[
    some { name := "Waypoint", shape := .record [
      { name := "at", type := { target := 1 }, default := some (.dict []) },
      { name := "next", type := { target := 3 }, default := some .null }] },
    some { name := "Distance", shape := .record [{ name := "km", type := { target := 2 }, default := some (.int 0) }] },
    some { name := "int", shape := .basic .integer },
    some { name := "Optional", shape := .union [{ target := 0, weak := true }, { target := 4 }] },
    some { name := "None", shape := .basic .null }]⟩ {} none

/-- The schema of ways: the default of `at` is filled from that of `km`. -/
def waypointsSchema : Schema :=
  .record ⟨"Waypoint", none⟩ none [
    ⟨"at", .record ⟨"Distance", none⟩ none [⟨"km", .primitive .long, none, some (.int 0)⟩], none,
      some (.obj [("km", .int 0)])⟩,
    ⟨"next", .union [.primitive .null, .reference "Waypoint"], none, some .null⟩]

theorem derive_waypoints : standard.derive waypoints 0 = .ok waypointsSchema := by cbv

theorem noSelfFallback_waypoints : waypoints.NoSelfFallback 0 := by
  have hdistance : ∀ {id}, waypoints.graph.Reachable 1 id → id = 1 ∨ id = 2 := by
    intro id hid
    induction hid with
    | refl => exact .inl rfl
    | tail _ hstep ih =>
      obtain ⟨d, hget, e, he, rfl⟩ := hstep
      rcases ih with rfl | rfl
      · cases hget
        rw [List.mem_singleton.mp he]
        exact .inr rfl
      · cases hget
        cases he
  intro r f _ hf hself
  obtain ⟨v, hv, hmeets⟩ := hself
  obtain ⟨d, fs, hget, hd, hmem⟩ := TypeGraph.mem_fieldsOf hf
  match r, hget with
  | 0, hget =>
    cases hget
    cases hd
    rcases List.mem_pair.mp hmem with rfl | rfl
    · simpa using hdistance hmeets.reachable.1
    · cases hv
      exact Setting.not_meets_of_scalar (by simp) (by simp) hmeets
  | 1, hget =>
    cases hget
    cases hd
    obtain rfl := List.mem_singleton.mp hmem
    cases hv
    exact Setting.not_meets_of_scalar (by simp) (by simp) hmeets
  | 2, hget | 3, hget | 4, hget =>
    cases hget
    cases hd

theorem ends_waypoints : waypoints.NoSelfFallback 0 ∧ fuelBound waypoints.graph = 42 ∧
    standard.deriveWithin waypoints 42 0 = some (.ok waypointsSchema) := by
  have hbound : fuelBound waypoints.graph = 42 := by decide
  have hends := derive_ends noSelfFallback_waypoints (Nat.le_of_eq hbound)
  rw [derive_waypoints] at hends
  exact ⟨noSelfFallback_waypoints, hbound, hends⟩

end Avro
