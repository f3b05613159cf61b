import Avro.Proofs.Conformance.Basic
import Avro.Proofs.Definitions
import Avro.Proofs.Json.Entries
import Avro.Proofs.Symbols

/-!
# Defaults conform to the schemas of their fields

The encoding of a default for a type conforms to each schema that shows the type among the nodes of a schema
(`conforms_of_encode`), so the default of a field conforms to the schema of the field. If that is a union, it conforms
to the first member.
-/

namespace Avro

variable {cx : Setting} {M : Shows} {Ref : TypeId → String → Prop} {id : TypeId} {default : Option Value}
  {σ tree : Schema} {d : Descriptor} {encode : TypeId → Value → Encode Json} {v : Value} {j : Json}

/-! ## One type -/

/-- The object of a default of a record has the fields of the record's schema, if their defaults conform. -/
theorem conforms_record {name : String} {fs : List Field} {ss : List (SchemaField Schema)} {heading : Heading}
    {doc : Option String} (h : (Rule.encodeRecord cx encode name fs v).outcome = some (.ok j))
    (hfs : List.Forall₂ (FieldTranslates cx M) fs ss) (hnodup : (ss.map SchemaField.name).Nodup)
    (hM : ∀ {i w τ v j}, M i w τ → (encode i v).outcome = some (.ok j) → Conforms tree τ j) :
    Conforms tree (.record heading doc ss) j := by
  obtain ⟨es, js, -, -, hjs, rfl⟩ := encodeRecord_ok.mp h
  have hjs := encodeFields_ok.mp hjs
  have hkeys : js.map Prod.fst = ss.map SchemaField.name := by
    rw [map_name_of_translates hfs, map_eq_map_of_forall₂ hjs fun hy => hy.1]
  rw [Json.ofEntries_of_nodup (hkeys ▸ hnodup)]
  refine .record hkeys (forall_mem_zip (T := fun s y => Conforms tree s.type y.2) hfs hjs ?_)
  rintro f s y hf ⟨-, v, -, hj⟩
  exact hM hf.type hj

/-- What the rule of a type accepts conforms to a schema that shows the type and is no reference. -/
theorem Translates.conforms {r : Rule} (h : Translates cx M Ref id default σ) (hget : cx.graph.get? id = some d)
    (hdef : d.isNamed = true → ∃ fullName, σ.definedName? = some fullName) (hforward : ∀ name, d.shape ≠ .forward name)
    (hM : ∀ {i w τ v j}, M i w τ → (encode i v).outcome = some (.ok j) → Conforms tree τ j)
    (hr : cx.graph.ruleFor? d = some r) (henc : (r.encode cx encode d v).outcome = some (.ok j)) :
    Conforms tree σ j := by
  cases h with
  | leaf hget' hl =>
    cases hget.symm.trans hget'
    exact hl.conforms hforward hr henc
  | reference hget' hn =>
    cases hget.symm.trans hget'
    obtain ⟨fullName, hname⟩ := hdef hn
    cases hname
  | enum hget' _ hd hs =>
    cases hget.symm.trans hget'
    simp only [TypeGraph.ruleFor?, hd, Option.some.injEq] at hr
    subst hr
    simp only [Rule.enum, hd, Encode.outcome_ofExcept, Option.some.injEq] at henc
    unfold Rule.encodeSymbol at henc
    split at henc
    · split at henc
      · cases henc
        exact .enum ((mem_distinctSymbols hs).mpr (.inr ‹_›))
      · cases henc
    · cases henc
  | duration hget' _ hd =>
    cases hget.symm.trans hget'
    simp only [TypeGraph.ruleFor?, hd, Option.some.injEq] at hr
    subst hr
    cases henc
  | record hget' _ hd hfs hnodup =>
    cases hget.symm.trans hget'
    simp only [TypeGraph.ruleFor?, hd, Option.some.injEq] at hr
    subst hr
    simp only [Rule.record, hd] at henc
    exact conforms_record henc hfs hnodup hM
  | union hget' hd hflat ho hσs =>
    cases hget.symm.trans hget'
    simp only [TypeGraph.ruleFor?, hd, Option.some.injEq] at hr
    subst hr
    simp only [Rule.union, hd, Rule.encodeUnion, hflat, Encode.outcome_bind_ok, Encode.outcome_pure] at henc
    obtain ⟨c, hc, he⟩ := henc
    cases he
    obtain ⟨before, after, rfl, -, hj, -⟩ := Encode.choose_ok_iff.mp hc
    obtain ⟨τ, hτ, hshows⟩ := exists_of_forall₂_left hσs (ho.mem.mpr (by simp : c.member ∈ _))
    exact .union hτ (hM hshows hj)
  | sequence hget' hd hj hσ =>
    cases hget.symm.trans hget'
    simp only [TypeGraph.ruleFor?, hd, hj, Bool.false_eq_true, if_false, Option.some.injEq] at hr
    subst hr
    simp only [Rule.sequence, hd] at henc
    split at henc
    · rename_i element items he
      cases he
      obtain ⟨js, hjs, rfl⟩ := Encode.outcome_map_ok.mp henc
      refine .array fun i hi => ?_
      obtain ⟨v, -, hv⟩ := exists_of_forall₂_right (encodeItems_ok.mp hjs) hi
      exact hM hσ hv
    · cases henc
    · cases henc
  | map hget' hd hj _ _ hσ =>
    cases hget.symm.trans hget'
    simp only [TypeGraph.ruleFor?, hd, hj, Bool.false_eq_true, if_false, Option.some.injEq] at hr
    subst hr
    simp only [Rule.map, hd] at henc
    split at henc
    · rename_i key value entries he
      cases he
      obtain ⟨js, hjs, rfl⟩ := Encode.outcome_map_ok.mp henc
      obtain ⟨out, hout, hmem⟩ := Json.mem_ofEntries js
      rw [hout]
      refine .map fun e he => ?_
      obtain ⟨x, -, -, hx⟩ := exists_of_forall₂_right (encodeEntries_ok.mp hjs) (hmem e he)
      exact hM hσ hx
    · cases henc
    · cases henc

/-! ## All types -/

/-- The encoding of a default conforms to each node that shows its type. -/
theorem conforms_of_encode {root : TypeId} (hroot : Derived cx ⟨root, none, tree⟩)
    (hscope : Scoped cx [] (cx.labelled ⟨root, none, tree⟩)) (hforward : cx.graph.NoForward root)
    (h : (RuleTable.standard.encode cx id v).outcome = some (.ok j)) :
    ∀ {default σ}, ⟨id, default, σ⟩ ∈ cx.labelled ⟨root, none, tree⟩ → Conforms tree σ j := by
  revert h
  refine RuleTable.encode_induction (Q := fun id _ j => ∀ {default σ},
    ⟨id, default, σ⟩ ∈ cx.labelled ⟨root, none, tree⟩ → Conforms tree σ j) ?_
  intro id v j d r enc hget hr henc _ ih default σ hmem
  have hnot : ∀ name, d.shape ≠ .forward name := fun name => hforward (reachable_of_mem hroot hmem) hget
  -- a node that is no reference conforms by the rule of the type
  have hnode : ∀ {w τ}, ⟨id, w, τ⟩ ∈ cx.labelled ⟨root, none, tree⟩ →
      (d.isNamed = true → ∃ fullName, τ.definedName? = some fullName) → Conforms tree τ j := fun hτ hdef =>
    (translates_of_mem hroot hτ).conforms hget hdef hnot (fun hm he => ih he hm) hr henc
  cases resolves_of_mem hroot hscope hmem with
  | reference hget' hn _ hRef =>
    obtain ⟨w, τ, hτ, hdef⟩ := hRef
    refine .reference ?_ hdef (hnode hτ fun _ => ⟨_, hdef⟩)
    rw [← map_schema_labelled hroot]
    exact List.mem_map_of_mem (f := Node.schema) hτ
  | leaf hget' hl =>
    cases hget.symm.trans hget'
    exact hnode hmem fun hn => by simp [hl.not_named] at hn
  | enum | duration | record => exact hnode hmem fun _ => ⟨_, rfl⟩
  | union hget' hd | sequence hget' hd | map hget' hd =>
    cases hget.symm.trans hget'
    exact hnode hmem fun hn => by simp [Descriptor.isNamed, hd] at hn

/-- **The default of a field conforms to the schema of the field, and to its first member if it is a union.** -/
theorem derive_conforms {root : TypeId} (hforward : cx.graph.NoForward root)
    (h : RuleTable.standard.derive cx root = .ok tree) {heading : Heading} {doc : Option String}
    {fields : List (SchemaField Schema)} (hrecord : .record heading doc fields ∈ tree.nodes) {s : SchemaField Schema}
    (hs : s ∈ fields) (hj : s.default = some j) :
    Conforms tree s.type j ∧ ∀ {τ τs}, s.type = .union (τ :: τs) → Conforms tree τ j := by
  obtain ⟨hroot, hscope⟩ := nodes_of_derive h
  obtain ⟨f, hf⟩ := translates_field hroot hrecord hs
  have hmem := hf.type
  cases hv : f.default with
  | none =>
    rw [hf.noDefault hv] at hj
    cases hj
  | some v =>
    obtain ⟨j', hj', henc⟩ := hf.default v hv
    cases hj.symm.trans hj'
    refine ⟨conforms_of_encode hroot hscope hforward henc hmem, ?_⟩
    intro τ τs hτ
    have htrans := translates_of_mem hroot hmem
    rw [hτ, hv] at htrans
    cases htrans with
    | leaf _ hl => cases hl
    | union hget hd hflat ho hσs =>
      obtain ⟨m, others, rfl, hm⟩ := ho.first hget hd hflat henc
      cases hσs with
      | cons hτ _ => exact conforms_of_encode hroot hscope hforward hm hτ

theorem conforms_linkedList : linkedList.graph.NoForward 0 ∧
    RuleTable.standard.derive linkedList 0 = .ok linkedListSchema ∧
    Conforms linkedListSchema (.union [.primitive .null, .reference "app.Node"]) .null ∧
    Conforms linkedListSchema (.primitive .null) .null := by
  have hrecord : linkedListSchema ∈ linkedListSchema.nodes := List.mem_cons_self
  obtain ⟨hconforms, hfirst⟩ := derive_conforms linkedList_noForward derive_linkedList hrecord
    (List.mem_cons_of_mem _ List.mem_cons_self) rfl
  exact ⟨linkedList_noForward, derive_linkedList, hconforms, hfirst rfl⟩

end Avro
