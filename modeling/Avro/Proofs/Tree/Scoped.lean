import Avro.Proofs.Tree.Labels

/-!
# Which nodes define types

A named type is defined by the first node that stands for it and is referred to by all others. `Scoped cx ids xs` says
so of nodes in order, where `ids` are the types that are defined before them. Then the names that are defined are
distinct (`Scoped.nodup`), and each reference is by a name that is defined (`Scoped.exists_definition_of_reference`).
-/

namespace Avro

/-- The full name of the type, if its description is not gone. -/
def Setting.nameAt (cx : Setting) (id : TypeId) : String := ((cx.graph.get? id).map cx.fullNameOf).getD ""

theorem Setting.nameAt_eq {cx : Setting} {id : TypeId} {d : Descriptor} (hget : cx.graph.get? id = some d) :
    cx.nameAt id = cx.fullNameOf d := by simp [nameAt, hget]

/-- The types that the nodes define. -/
def definitions (xs : List Node) : List TypeId := (xs.filter fun x => x.schema.definedName?.isSome).map Node.type

@[simp] theorem definitions_nil : definitions [] = [] := rfl

@[simp] theorem definitions_append (xs ys : List Node) : definitions (xs ++ ys) = definitions xs ++ definitions ys := by
  simp [definitions]

theorem definitions_cons (x : Node) (xs : List Node) : definitions (x :: xs) = definitions [x] ++ definitions xs :=
  definitions_append [x] xs

theorem definitions_of_defined {x : Node} {fullName : String} (h : x.schema.definedName? = some fullName) :
    definitions [x] = [x.type] := by simp [definitions, h]

theorem definitions_of_not {x : Node} (h : x.schema.definedName? = none) : definitions [x] = [] := by
  simp [definitions, h]

theorem mem_definitions {id : TypeId} {xs : List Node} :
    id ∈ definitions xs ↔ ∃ x ∈ xs, x.type = id ∧ ∃ fullName, x.schema.definedName? = some fullName := by
  simp only [definitions, List.mem_map, List.mem_filter, Option.isSome_iff_exists]
  constructor
  · rintro ⟨x, ⟨hx, hd⟩, rfl⟩
    exact ⟨x, hx, rfl, hd⟩
  · rintro ⟨x, hx, rfl, hd⟩
    exact ⟨x, ⟨hx, hd⟩, rfl⟩

/-- What a node is where the types `ids` are defined. -/
inductive Stands (cx : Setting) (ids : List TypeId) (x : Node) : Prop
  | other {d : Descriptor} :
      cx.graph.get? x.type = some d → d.isNamed = false → x.schema.definedName? = none → Stands cx ids x
  | reference {d : Descriptor} :
      cx.graph.get? x.type = some d → d.isNamed = true → x.type ∈ ids → x.schema = .reference (cx.fullNameOf d) →
      Stands cx ids x
  | definition {d : Descriptor} :
      cx.graph.get? x.type = some d → d.isNamed = true → x.type ∉ ids → (∀ i ∈ ids, cx.nameAt i ≠ cx.fullNameOf d) →
      x.schema.definedName? = some (cx.fullNameOf d) → Stands cx ids x

/-- A named type stands by its name if it is defined, and is defined under a new name if it is not. -/
theorem Stands.of_named {cx : Setting} {ids : List TypeId} {x : Node} {d : Descriptor} (h : Stands cx ids x)
    (hget : cx.graph.get? x.type = some d) (hn : d.isNamed = true) :
    x.type ∈ ids ∧ x.schema = .reference (cx.fullNameOf d) ∨
      x.type ∉ ids ∧ (∀ i ∈ ids, cx.nameAt i ≠ cx.fullNameOf d) ∧ x.schema.definedName? = some (cx.fullNameOf d) := by
  cases h with
  | other hget' hn' =>
    cases hget.symm.trans hget'
    simp [hn] at hn'
  | reference hget' _ hid href =>
    cases hget.symm.trans hget'
    exact .inl ⟨hid, href⟩
  | definition hget' _ hid hname hdef =>
    cases hget.symm.trans hget'
    exact .inr ⟨hid, hname, hdef⟩

/-- A node that defines a name stands for a type that is not defined before, and has that full name. -/
theorem Stands.of_defined {cx : Setting} {ids : List TypeId} {x : Node} {fullName : String} (h : Stands cx ids x)
    (hdef : x.schema.definedName? = some fullName) :
    ∃ d, cx.graph.get? x.type = some d ∧ d.isNamed = true ∧ fullName = cx.fullNameOf d ∧
      ∀ i ∈ ids, cx.nameAt i ≠ fullName := by
  cases h with
  | other _ _ hnone => simp [hdef] at hnone
  | reference _ _ _ href => simp [href, Schema.definedName?] at hdef
  | definition hget hn _ hname hdef' =>
    cases hdef.symm.trans hdef'
    exact ⟨_, hget, hn, rfl, hname⟩

/-- Each of the nodes is what it has to be behind those before it. -/
def Scoped (cx : Setting) : List TypeId → List Node → Prop
  | _, [] => True
  | ids, x :: xs => Stands cx ids x ∧ Scoped cx (ids ++ definitions [x]) xs

variable {cx : Setting}

theorem scoped_append : ∀ {ids : List TypeId} {xs ys : List Node},
    Scoped cx ids (xs ++ ys) ↔ Scoped cx ids xs ∧ Scoped cx (ids ++ definitions xs) ys
  | ids, [], ys => by simp [Scoped]
  | ids, x :: xs, ys => by
    rw [List.cons_append, Scoped, Scoped, scoped_append, definitions_cons x xs, List.append_assoc, and_assoc]

/-- A node is what it has to be behind the nodes before it. -/
theorem Scoped.stands {ids : List TypeId} {before after : List Node} {x : Node}
    (h : Scoped cx ids (before ++ x :: after)) : Stands cx (ids ++ definitions before) x := (scoped_append.mp h).2.1

/-! ## Nodes in scope -/

section Nodes

variable {ids : List TypeId} {xs : List Node} {x : Node} {d : Descriptor}

namespace Scoped

/-- The name that a node defines is the full name of its type, which is a named one. -/
theorem definedName (h : Scoped cx ids xs) (hx : x ∈ xs) {fullName : String}
    (hdef : x.schema.definedName? = some fullName) :
    ∃ d, cx.graph.get? x.type = some d ∧ d.isNamed = true ∧ fullName = cx.fullNameOf d := by
  obtain ⟨before, after, rfl⟩ := List.append_of_mem hx
  obtain ⟨d, hget, hn, hname, -⟩ := h.stands.of_defined hdef
  exact ⟨d, hget, hn, hname⟩

/-- The names that are defined are those of the types that are defined. -/
theorem map_nameAt_definitions (h : Scoped cx ids xs) :
    (definitions xs).map cx.nameAt = (xs.map Node.schema).filterMap Schema.definedName? := by
  induction xs generalizing ids with
  | nil => rfl
  | cons x xs ih =>
    rw [definitions_cons, List.map_append, ih h.2, List.map_cons]
    cases hdef : x.schema.definedName? with
    | none => rw [definitions_of_not hdef, List.filterMap_cons_none hdef, List.map_nil, List.nil_append]
    | some fullName =>
      obtain ⟨d, hget, -, rfl⟩ := h.definedName List.mem_cons_self hdef
      rw [definitions_of_defined hdef, List.filterMap_cons_some hdef, List.map_cons, Setting.nameAt_eq hget]
      rfl

/-- If the names of the types that are defined are distinct, they still are behind the nodes. -/
theorem nodup (h : Scoped cx ids xs) (hids : (ids.map cx.nameAt).Nodup) :
    ((ids ++ definitions xs).map cx.nameAt).Nodup := by
  induction xs generalizing ids with
  | nil => simpa using hids
  | cons x xs ih =>
    rw [definitions_cons, ← List.append_assoc]
    refine ih h.2 ?_
    cases hdef : x.schema.definedName? with
    | none => simpa [definitions_of_not hdef] using hids
    | some fullName =>
      obtain ⟨d, hget, -, rfl, hname⟩ := h.1.of_defined hdef
      rw [definitions_of_defined hdef, List.map_append, List.nodup_append]
      refine ⟨hids, by simp, fun a ha b hb => ?_⟩
      obtain ⟨i, hi, rfl⟩ := List.mem_map.mp ha
      obtain rfl : b = cx.nameAt x.type := by simpa using hb
      rw [Setting.nameAt_eq hget]
      exact hname i hi

/-- A named type that a node stands for is defined by a node, or was before. -/
theorem exists_definition (hget : cx.graph.get? x.type = some d) (hn : d.isNamed = true) :
    ∀ {ids : List TypeId} {xs : List Node}, Scoped cx ids xs → x ∈ xs →
      x.type ∈ ids ∨ ∃ y ∈ xs, y.type = x.type ∧ y.schema.definedName? = some (cx.fullNameOf d)
  | ids, y :: xs, ⟨hy, hxs⟩, hx => by
    rcases List.mem_cons.mp hx with rfl | hx
    · rcases hy.of_named hget hn with ⟨hid, -⟩ | ⟨-, -, hdef⟩
      · exact .inl hid
      · exact .inr ⟨_, List.mem_cons_self, rfl, hdef⟩
    · rcases hxs.exists_definition hget hn hx with hid | ⟨z, hz, htype, hdef⟩
      · rcases List.mem_append.mp hid with hid | hid
        · exact .inl hid
        · -- the type is defined by the node in front
          obtain ⟨z, hz, htype, fullName, hdef⟩ := mem_definitions.mp hid
          obtain rfl := List.mem_singleton.mp hz
          obtain ⟨d', hget', -, rfl, -⟩ := hy.of_defined hdef
          rw [htype] at hget'
          cases hget.symm.trans hget'
          exact .inr ⟨_, List.mem_cons_self, htype, hdef⟩
      · exact .inr ⟨z, List.mem_cons_of_mem _ hz, htype, hdef⟩

/-- A reference to a named type is by the full name that a node defines which stands for the type too. -/
theorem exists_definition_of_reference (h : Scoped cx [] xs) (hx : x ∈ xs)
    (hget : cx.graph.get? x.type = some d) (hn : d.isNamed = true) {fullName : String}
    (href : x.schema = .reference fullName) : ∃ y ∈ xs, y.type = x.type ∧ y.schema.definedName? = some fullName := by
  obtain rfl : fullName = cx.fullNameOf d := by
    obtain ⟨before, after, rfl⟩ := List.append_of_mem hx
    rcases h.stands.of_named hget hn with ⟨-, href'⟩ | ⟨-, -, hdef⟩
    · cases href.symm.trans href'
      rfl
    · simp [href, Schema.definedName?] at hdef
  rcases h.exists_definition hget hn hx with hid | hy
  · cases hid
  · exact hy

/-- A named type that a node stands for is among those that the nodes define. -/
theorem mem_definitions_of_mem (h : Scoped cx [] xs) (hget : cx.graph.get? x.type = some d) (hn : d.isNamed = true)
    (hx : x ∈ xs) : x.type ∈ definitions xs := by
  rcases h.exists_definition hget hn hx with hid | ⟨y, hy, htype, hdef⟩
  · cases hid
  · exact mem_definitions.mpr ⟨y, hy, htype, _, hdef⟩

/-- The first node of a named type is a definition, and any other is a reference. -/
theorem first_or_again {before after : List Node} (h : Scoped cx [] (before ++ x :: after))
    (hget : cx.graph.get? x.type = some d) (hn : d.isNamed = true) :
    (∀ y ∈ before, y.type ≠ x.type) ∧ x.schema.definedName? = some (cx.fullNameOf d) ∨
      (∃ y ∈ before, y.type = x.type) ∧ x.schema = .reference (cx.fullNameOf d) := by
  have hstands := h.stands
  rw [List.nil_append] at hstands
  rcases hstands.of_named hget hn with ⟨hid, href⟩ | ⟨hid, -, hdef⟩
  · obtain ⟨y, hy, htype, -⟩ := mem_definitions.mp hid
    exact .inr ⟨⟨y, hy, htype⟩, href⟩
  · refine .inl ⟨fun y hy htype => hid ?_, hdef⟩
    rw [← htype] at hget ⊢
    exact (scoped_append.mp h).1.mem_definitions_of_mem hget hn hy

/-- A node of a named type is a definition or a reference by the full name of the type. -/
theorem definition_or_reference (h : Scoped cx [] xs) (hget : cx.graph.get? x.type = some d) (hn : d.isNamed = true)
    (hx : x ∈ xs) : x.schema.definedName? = some (cx.fullNameOf d) ∨ x.schema = .reference (cx.fullNameOf d) := by
  obtain ⟨before, after, rfl⟩ := List.append_of_mem hx
  exact (h.first_or_again hget hn).imp And.right And.right

end Scoped

end Nodes

end Avro
