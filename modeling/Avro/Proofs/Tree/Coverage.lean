import Avro.Proofs.Tree.Extends

/-!
# Which types a schema covers

The nodes of a schema stand for types that can be reached (`reachable_of_mem`), and for all of these but the unions
that are spliced into others. So what holds of the types of nodes, and of a union if it holds of the members that it
lists, holds of all types that can be reached (`forall_reachable`). From the type of a node, all ways through types
without names end (`acc_of_derived`).
-/

namespace Avro

open Relation

variable {cx : Setting} {M : Shows} {Ref : TypeId → String → Prop} {id : TypeId} {default : Option Value} {σ : Schema}
  {d : Descriptor}

theorem Leaf.followed {σ : Schema} (h : Leaf cx d σ) : cx.graph.followed d = [] := by
  cases h with
  | basic hd | refined hd | namedString hd | decimal hd | forward hd => simp [TypeGraph.followed, hd]
  | json hj => rcases TypeGraph.collection_of_isJson hj with ⟨_, _, hd⟩ | ⟨_, hd⟩ <;> simp [TypeGraph.followed, hd, hj]

/-! ## Parts of nodes -/

/-- The type of a part can be reached from that of the node. -/
theorem Translates.reachable_kids (h : Translates cx M Ref id default σ) {k : Node}
    (hk : k ∈ cx.kids ⟨id, default, σ⟩) : cx.graph.Reachable id k.type := by
  -- the parts that are said to be reached are all parts
  suffices hreach : Translates cx (fun i _ _ => cx.graph.Reachable id i) Ref id default σ from hreach.of_kids hk
  cases h with
  | leaf hget hl => exact .leaf hget hl
  | reference hget hn hv hr => exact .reference hget hn hv hr
  | enum hget hv hd hs => exact .enum hget hv hd hs
  | duration hget hv hd => exact .duration hget hv hd
  | @record _ fs ss hget hv hd hfs hnodup =>
    refine .record hget hv hd ?_ hnodup
    have hmem : List.Forall₂ (fun f s => f ∈ fs ∧ FieldTranslates cx M f s) fs ss :=
      (List.forall₂_and_left fs ss).mpr ⟨fun _ hf => hf, hfs⟩
    exact hmem.imp fun f s h => { h.2 with type := .single (TypeGraph.leads_field hget hd h.1) }
  | @union _ members flat order σs hget hd hflat ho hσs =>
    refine .union hget hd hflat ho ?_
    have hmem : List.Forall₂ (fun m τ => m ∈ order ∧ M m none τ) order σs :=
      (List.forall₂_and_left order σs).mpr ⟨fun _ hm => hm, hσs⟩
    exact hmem.imp fun m τ h => TypeGraph.reachable_of_mem_flatMembers hget hd hflat (ho.mem.mp h.1)
  | sequence hget hd hj hσ =>
    exact .sequence hget hd hj (.single (TypeGraph.leadsUnnamed_element hget hd hj).leads)
  | map hget hd hj hkey hstr hσ =>
    exact .map hget hd hj hkey hstr (.single (TypeGraph.leadsUnnamed_value hget hd hj).leads)

/-- What holds of the parts of a node that is no reference holds of all that its type leads to. -/
theorem Translates.closed {Q : TypeId → Prop} (h : Translates cx M Ref id default σ) (hget : cx.graph.get? id = some d)
    (hdef : d.isNamed = true → ∃ fullName, σ.definedName? = some fullName)
    (hunion : ∀ {u d members}, cx.graph.get? u = some d → d.shape = .union members →
      (∀ e ∈ members, Q e.target) → Q u)
    (hM : ∀ {id v σ}, M id v σ → Q id) : ∀ e ∈ cx.graph.followed d, Q e.target := by
  cases h with
  | leaf hget' hl =>
    cases hget.symm.trans hget'
    rw [hl.followed]
    simp
  | reference hget' hn =>
    cases hget.symm.trans hget'
    obtain ⟨fullName, hname⟩ := hdef hn
    cases hname
  | enum hget' _ hd | duration hget' _ hd =>
    cases hget.symm.trans hget'
    simp [TypeGraph.followed, hd]
  | record hget' hv hd hfs hnodup =>
    cases hget.symm.trans hget'
    simp only [TypeGraph.followed, hd, List.mem_map]
    rintro _ ⟨f, hf, rfl⟩
    obtain ⟨s, -, hs⟩ := exists_of_forall₂_left hfs hf
    exact hM hs.type
  | union hget' hd hflat ho hσs =>
    cases hget.symm.trans hget'
    simp only [TypeGraph.followed, hd]
    refine TypeGraph.flatMembers_closed hflat hunion fun m hm => ?_
    obtain ⟨τ, -, hτ⟩ := exists_of_forall₂_left hσs (ho.mem.mpr hm)
    exact hM hτ
  | sequence hget' hd hj hσ | map hget' hd hj _ _ hσ =>
    cases hget.symm.trans hget'
    simpa [TypeGraph.followed, hd, hj] using hM hσ

/-! ## All nodes -/

/-- The type of a node can be reached. -/
theorem reachable_of_mem {r x : Node} (hr : Derived cx r) (hx : x ∈ cx.labelled r) :
    cx.graph.Reachable r.type x.type := by
  have hall : ∀ y ∈ cx.labelled r, Derived cx y ∧ cx.graph.Reachable r.type y.type := by
    refine Setting.labelled_induction (fun y hy k hk => ?_) r ⟨hr, .refl⟩
    exact ⟨hy.1.translates.of_kids hk, hy.2.trans (hy.1.translates.reachable_kids hk)⟩
  exact (hall x hx).2

/-- Each node shows its type by nodes of the schema, and a reference to a type is by the name of its definition. -/
theorem resolves_of_mem {r x : Node} (hr : Derived cx r) (hs : Scoped cx [] (cx.labelled r)) (hx : x ∈ cx.labelled r) :
    Translates cx (fun i v τ => ⟨i, v, τ⟩ ∈ cx.labelled r)
      (fun i fullName => ∃ v τ, ⟨i, v, τ⟩ ∈ cx.labelled r ∧ τ.definedName? = some fullName)
      x.type x.default x.schema := by
  refine (translates_of_mem hr hx).imp (fun h => h) fun hget hn href _ => ?_
  obtain ⟨⟨i, v, τ⟩, hy, rfl, hdef⟩ := hs.exists_definition_of_reference hx hget hn href
  exact ⟨v, τ, hy, hdef⟩

/-- The type of a node, or a union that lists such types and such unions. -/
inductive Seen (g : TypeGraph) (xs : List Node) : TypeId → Prop
  | node {x : Node} : x ∈ xs → Seen g xs x.type
  | union {u : TypeId} {d : Descriptor} {members : List Edge} :
      g.get? u = some d → d.shape = .union members → (∀ e ∈ members, Seen g xs e.target) → Seen g xs u

/-- **What holds of the types of nodes, and of a union if of all it lists, holds of all that can be reached.** -/
theorem forall_reachable {Q : TypeId → Prop} {r : Node} (hr : Derived cx r) (hs : Scoped cx [] (cx.labelled r))
    (hunion : ∀ {u d members}, cx.graph.get? u = some d → d.shape = .union members →
      (∀ e ∈ members, Q e.target) → Q u)
    (hQ : ∀ x ∈ cx.labelled r, Q x.type) : ∀ id, cx.graph.Reachable r.type id → Q id := by
  have hseen : ∀ id, cx.graph.Reachable r.type id → Seen cx.graph (cx.labelled r) id := by
    intro id hreach
    induction hreach with
    | refl => exact .node (Setting.mem_labelled_self r)
    | tail _ hstep ih =>
      obtain ⟨d, hget, e, he, rfl⟩ := hstep
      cases ih with
      | @node x hx =>
        -- the parts of a named type are at the node that defines it
        obtain ⟨y, hy, htype, hdef⟩ : ∃ y ∈ cx.labelled r, y.type = x.type ∧
            (d.isNamed = true → ∃ fullName, y.schema.definedName? = some fullName) := by
          cases hn : d.isNamed with
          | false => exact ⟨x, hx, rfl, by simp⟩
          | true =>
            rcases hs.exists_definition hget hn hx with hid | ⟨y, hy, htype, hdef⟩
            · cases hid
            · exact ⟨y, hy, htype, fun _ => ⟨_, hdef⟩⟩
        rw [← htype] at hget
        exact (translates_of_mem hr hy).closed hget hdef .union .node e he
      | union hget' hd hmembers =>
        cases hget.symm.trans hget'
        simp only [TypeGraph.followed, hd] at he
        exact hmembers e he
  intro id hreach
  have hid := hseen id hreach
  clear hreach
  induction hid with
  | node hx => exact hQ _ hx
  | union hget hd _ ih => exact hunion hget hd ih

/-- Some node stands for each named type that can be reached. -/
theorem exists_node {r : Node} (hr : Derived cx r) (hs : Scoped cx [] (cx.labelled r))
    (hreach : cx.graph.Reachable r.type id) (hget : cx.graph.get? id = some d) (hn : d.isNamed = true) :
    ∃ x ∈ cx.labelled r, x.type = id := by
  refine forall_reachable (Q := fun id => ∀ d, cx.graph.get? id = some d → d.isNamed = true →
    ∃ x ∈ cx.labelled r, x.type = id) hr hs ?_ (fun x hx _ _ _ => ⟨x, hx, rfl⟩) id hreach d hget hn
  intro u d' members hget' hd _ d hget hn
  cases hget.symm.trans hget'
  simp [Descriptor.isNamed, hd] at hn

/-- A named type that can be reached is among those that the nodes define. -/
theorem mem_definitions_of_reachable {r : Node} (hr : Derived cx r) (hs : Scoped cx [] (cx.labelled r))
    (hreach : cx.graph.Reachable r.type id) (hget : cx.graph.get? id = some d) (hn : d.isNamed = true) :
    id ∈ definitions (cx.labelled r) := by
  obtain ⟨x, hx, rfl⟩ := exists_node hr hs hreach hget hn
  exact hs.mem_definitions_of_mem hget hn hx

/-! ## Cycles -/

/-- All ways from a union through types without names end if they do from the members that it lists. -/
theorem acc_of_union {u : TypeId} {members : List Edge} (hget : cx.graph.get? u = some d)
    (hd : d.shape = .union members)
    (hacc : ∀ e ∈ members, Acc (Function.swap cx.graph.LeadsUnnamed) e.target) :
    Acc (Function.swap cx.graph.LeadsUnnamed) u := by
  refine .intro u ?_
  rintro _ ⟨d', hget', -, e, he, rfl⟩
  cases hget.symm.trans hget'
  simp only [TypeGraph.followed, hd] at he
  exact hacc e he

/-- All ways from the type of a node through types without names end. -/
theorem acc_of_derived {x : Node} (hx : Derived cx x) : Acc (Function.swap cx.graph.LeadsUnnamed) x.type := by
  have hkids : ∀ k ∈ cx.kids x, Acc (Function.swap cx.graph.LeadsUnnamed) k.type := fun k hk =>
    acc_of_derived (hx.translates.of_kids hk)
  refine .intro _ ?_
  rintro _ ⟨d, hget, hn, e, he, rfl⟩
  exact hx.translates.kids.closed hget (by simp [hn]) acc_of_union (fun hk => hkids _ hk) e he
termination_by sizeOf x.schema
decreasing_by exact Schema.sizeOf_parts (Setting.schema_mem_parts hk)

end Avro
