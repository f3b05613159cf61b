import Avro.Proofs.Tree.Translates

/-!
# The nodes of a schema that is derived

A node is `Derived` if some derivation that succeeds makes it, from whatever progress. The parts of such a node are
derived too, so all nodes of the schema of a type are, and each of them shows its type (`translates_of_mem`). The labels
of a schema that is derived cover all of its nodes (`map_schema_labelled`).
-/

namespace Avro

variable {cx : Setting}

/-- Some derivation makes the schema for the type, or for a field of the type with the default. -/
inductive Derived (cx : Setting) : Node → Prop
  | whole {n : Nat} {s s' : Progress} {id : TypeId} {default : Option Value} {σ : Schema} :
      (default.isSome = true → ∀ {d members}, cx.graph.get? id = some d → d.shape ≠ .union members) →
      Runs cx n s id σ s' → Derived cx ⟨id, default, σ⟩
  | chosen {n : Nat} {s s' : Progress} {id : TypeId} {d : Descriptor} {members : List Edge} {flat : List TypeId}
      {v : Value} {c : Choice} {σs : List Schema} :
      cx.graph.get? id = some d → d.shape = .union members → cx.graph.flatMembers members = .ok flat →
      (Encode.choose cx.graph (RuleTable.standard.encode cx) flat v).outcome = some (.ok c) →
      Threaded (Runs cx n) s c.order σs s' → Derived cx ⟨id, some v, .union σs⟩

/-- A derived schema shows the type, or the type of a field with the default. -/
abbrev Setting.Makes (cx : Setting) : Shows := fun id default σ => Derived cx ⟨id, default, σ⟩

theorem Threaded.forall₂ {α β : Type} {R : Deriving α β} {Q : α → β → Prop} {s s' : Progress} {as : List α}
    {bs : List β} (h : Threaded R s as bs s') (hRQ : ∀ s a b s', R s a b s' → Q a b) : List.Forall₂ Q as bs := by
  induction h with
  | nil => exact .nil
  | cons hab _ ih => exact .cons (hRQ _ _ _ _ hab) ih

theorem derived_of_runs {n : Nat} {s s' : Progress} {id : TypeId} {σ : Schema} (h : Runs cx n s id σ s') :
    Derived cx ⟨id, none, σ⟩ := .whole (by simp) h

/-! ## Parts -/

/-- The type of a field is derived with the default of the field, which is encoded for it. -/
theorem FieldStep.translates {n : Nat} {s s' : Progress} {f : Field} {sf : SchemaField Schema}
    (h : FieldStep cx (Runs cx n) s f sf s') : FieldTranslates cx cx.Makes f sf := by
  obtain ⟨hname, hmand, hget, htype⟩ := h
  cases htype with
  | bare hf hσ =>
    exact ⟨rfl, hname, rfl, .whole (by simp [hf]) hσ, hmand, fun _ => rfl, by simp [hf]⟩
  | plain hf hu hσ hj =>
    refine ⟨rfl, hname, rfl, .whole (fun _ => ?_) hσ, hmand, by simp [hf], ?_⟩
    · intro d' members hget'
      cases hget.symm.trans hget'
      exact hu members
    · intro v' hv'
      cases hf.symm.trans hv'
      exact ⟨_, rfl, hj⟩
  | chosen hf hd hflat hc hσs =>
    refine ⟨rfl, hname, rfl, ?_, hmand, by simp [hf], ?_⟩
    · dsimp only
      rw [hf]
      exact .chosen hget hd hflat hc hσs
    · intro v' hv'
      cases hf.symm.trans hv'
      exact ⟨_, rfl, (encode_union_ok hget hd hflat).mpr ⟨_, hc, rfl⟩⟩

/-- **A derived schema shows its type by derived schemas of its parts.** -/
theorem Derived.translates {x : Node} (h : Derived cx x) :
    Translates cx cx.Makes (fun _ _ => True) x.type x.default x.schema := by
  cases h with
  | chosen hget hd hflat hc hσs =>
    exact .union hget hd hflat (orderFor_choose hc) (hσs.forall₂ fun _ _ _ _ h => derived_of_runs h)
  | @whole n s s' id default σ hu h =>
    cases n with
    | zero => exact absurd h runs_zero
    | succ n =>
      cases runs_succ_iff.mp h with
      | leaf hget hl => exact .leaf hget hl
      | reference hget hn hv => exact .reference hget hn hv trivial
      | definition hget hn hv _ _ hb =>
        cases hb with
        | enum hd hs => exact .enum hget hv hd hs
        | duration hd => exact .duration hget hv hd
        | record hd hfs hnodup => exact .record hget hv hd (hfs.forall₂ fun _ _ _ _ h => h.translates) hnodup
      | composite hget _ hp =>
        cases hp with
        | union hd hflat hσs =>
          cases default with
          | none => exact .union hget hd hflat rfl (hσs.forall₂ fun _ _ _ _ h => derived_of_runs h)
          | some v => exact absurd hd (hu rfl hget)
        | sequence hd hj hσ => exact .sequence hget hd hj (derived_of_runs hσ)
        | map hd hj hk hstr hσ => exact .map hget hd hj hk hstr (derived_of_runs hσ)

/-! ## Nodes -/

theorem derived_of_mem {r x : Node} (hr : Derived cx r) (hx : x ∈ cx.labelled r) : Derived cx x :=
  Setting.labelled_induction (fun _ hy _ hk => hy.translates.of_kids hk) r hr x hx

/-- **Each node of a schema that is derived shows its type by nodes of the schema.** -/
theorem translates_of_mem {r x : Node} (hr : Derived cx r) (hx : x ∈ cx.labelled r) :
    Translates cx (fun i v τ => ⟨i, v, τ⟩ ∈ cx.labelled r) (fun _ _ => True) x.type x.default x.schema :=
  (derived_of_mem hr hx).translates.kids.imp (fun hk => Setting.kids_subset_labelled hx hk) fun _ _ _ h => h

/-- The labels of a schema that is derived are for its nodes, in the order of its text. -/
theorem map_schema_labelled {x : Node} (hx : Derived cx x) : (cx.labelled x).map Node.schema = x.schema.nodes := by
  rw [Setting.labelled_eq, Schema.nodes_eq, ← hx.translates.map_schema_kids, List.map_cons, List.map_flatMap,
    List.flatMap_map]
  congr 1
  apply List.flatMap_congr
  intro k hk
  exact map_schema_labelled (hx.translates.of_kids hk)
termination_by sizeOf x.schema
decreasing_by exact Schema.sizeOf_parts (Setting.schema_mem_parts hk)

/-- The fields of a record of the schema show fields of a type. -/
theorem translates_field {r : Node} (hr : Derived cx r) {heading : Heading} {doc : Option String}
    {fields : List (SchemaField Schema)} (hrecord : .record heading doc fields ∈ r.schema.nodes)
    {s : SchemaField Schema} (hs : s ∈ fields) :
    ∃ f, FieldTranslates cx (fun i v τ => ⟨i, v, τ⟩ ∈ cx.labelled r) f s := by
  rw [← map_schema_labelled hr] at hrecord
  obtain ⟨x, hx, hσ⟩ := List.mem_map.mp hrecord
  have htrans := translates_of_mem hr hx
  rw [hσ] at htrans
  cases htrans with
  | leaf _ hl => cases hl
  | record _ _ _ hfs _ =>
    obtain ⟨f, -, hf⟩ := exists_of_forall₂_right hfs hs
    exact ⟨f, hf⟩

end Avro
