import Avro.Proofs.Tree.Derived
import Avro.Proofs.Tree.Scoped

/-!
# What a derivation lets the registry know

The registry knows at any time just the types that the nodes so far define (`Runs.extends`). So the nodes of a schema
that is derived from the start are in scope of each other, and each of them is derived (`nodes_of_derive`).
-/

namespace Avro

variable {cx : Setting}

/-! ## What the registry knows -/

/-- Just these types are defined, each under its full name. -/
def Progress.Knows (cx : Setting) (s : Progress) (ids : List TypeId) : Prop :=
  s.registry.entries = ids.map fun i => (i, cx.nameAt i)

section Knows

variable {s : Progress} {ids : List TypeId} {id : TypeId} {fullName : String}

theorem Progress.Knows.nameOf? (h : s.Knows cx ids) :
    s.registry.nameOf? id = some fullName ↔ id ∈ ids ∧ fullName = cx.nameAt id := by
  unfold Registry.nameOf?
  rw [h]
  clear h
  induction ids with
  | nil => simp
  | cons i ids ih =>
    rw [List.map_cons, List.find?_cons]
    by_cases hi : i = id
    · simp [hi, eq_comm]
    · rw [beq_false_of_ne hi]
      simp only [List.mem_cons, Ne.symm hi, false_or, ← ih]

theorem Progress.Knows.nameOf?_none (h : s.Knows cx ids) : s.registry.nameOf? id = none ↔ id ∉ ids := by
  constructor
  · intro hn hid
    rw [h.nameOf?.mpr ⟨hid, rfl⟩] at hn
    cases hn
  · intro hid
    cases hn : s.registry.nameOf? id with
    | none => rfl
    | some fullName => exact absurd (h.nameOf?.mp hn).1 hid

theorem Progress.Knows.ownerOf?_none (h : s.Knows cx ids) :
    s.registry.ownerOf? fullName = none ↔ ∀ i ∈ ids, cx.nameAt i ≠ fullName := by
  unfold Registry.ownerOf?
  rw [h, Option.map_eq_none_iff, List.find?_eq_none]
  simp

theorem Progress.Knows.define {d : Descriptor} (h : s.Knows cx ids) (hget : cx.graph.get? id = some d)
    (pending : List TypeId) : Progress.Knows cx { s.define id (cx.fullNameOf d) with pending } (ids ++ [id]) := by
  unfold Progress.Knows
  rw [List.map_append, ← show s.registry.entries = _ from h, ← Setting.nameAt_eq hget]
  rfl

end Knows

/-- Nodes are in scope behind the types `ids`, and the registry knows behind them what they define too. -/
structure Extends (cx : Setting) (ids : List TypeId) (s : Progress) (xs : List Node) : Prop where
  inScope : Scoped cx ids xs
  knows : s.Knows cx (ids ++ definitions xs)

section Extends

variable {ids : List TypeId} {s s' : Progress}

theorem Extends.nil (h : s.Knows cx ids) : Extends cx ids s [] := ⟨trivial, by simpa using h⟩

theorem Extends.append {xs ys : List Node} (hxs : Extends cx ids s xs)
    (hys : Extends cx (ids ++ definitions xs) s' ys) :
    Extends cx ids s' (xs ++ ys) :=
  ⟨scoped_append.mpr ⟨hxs.inScope, hys.inScope⟩, by simpa using hys.knows⟩

/-- A node extends what is known with its parts if it defines nothing. -/
theorem Extends.other {x : Node} {d : Descriptor} (hget : cx.graph.get? x.type = some d) (hn : d.isNamed = false)
    (hx : x.schema.definedName? = none) (h : Extends cx ids s ((cx.kids x).flatMap cx.labelled)) :
    Extends cx ids s (cx.labelled x) := by
  rw [Setting.labelled_eq]
  refine ⟨⟨.other hget hn hx, ?_⟩, ?_⟩
  · rw [definitions_of_not hx, List.append_nil]
    exact h.inScope
  · rw [definitions_cons, definitions_of_not hx, List.nil_append]
    exact h.knows

theorem Extends.reference {x : Node} {d : Descriptor} (hget : cx.graph.get? x.type = some d) (hn : d.isNamed = true)
    (hid : x.type ∈ ids) (hx : x.schema = .reference (cx.fullNameOf d)) (hs : s.Knows cx ids) :
    Extends cx ids s (cx.labelled x) := by
  have hkids : cx.kids x = [] := by
    obtain ⟨i, v, σ⟩ := x
    cases hx
    rfl
  rw [Setting.labelled_eq, hkids]
  refine ⟨⟨.reference hget hn hid hx, trivial⟩, ?_⟩
  rw [List.flatMap_nil, definitions_of_not (by rw [hx]; rfl), List.append_nil]
  exact hs

/-- A node that defines its type lets its parts know it. -/
theorem Extends.definition {x : Node} {d : Descriptor} (hget : cx.graph.get? x.type = some d) (hn : d.isNamed = true)
    (hnew : x.type ∉ ids) (hname : ∀ i ∈ ids, cx.nameAt i ≠ cx.fullNameOf d)
    (hx : x.schema.definedName? = some (cx.fullNameOf d))
    (h : Extends cx (ids ++ [x.type]) s ((cx.kids x).flatMap cx.labelled)) : Extends cx ids s (cx.labelled x) := by
  rw [Setting.labelled_eq]
  refine ⟨⟨.definition hget hn hnew hname hx, ?_⟩, ?_⟩
  · rw [definitions_of_defined hx]
    exact h.inScope
  · rw [definitions_cons, definitions_of_defined hx, ← List.append_assoc]
    exact h.knows

/-- What the derivation of the node's schema does to what is known. -/
def Extending (cx : Setting) (s : Progress) (x : Node) (s' : Progress) : Prop :=
  ∀ ids, s.Knows cx ids → Extends cx ids s' (cx.labelled x)

/-- Parts that are derived one after the other extend what is known one after the other. -/
theorem Threaded.extends {α β : Type} {R : Deriving α β} {f : β → α → Node} {as : List α} {bs : List β}
    (h : Threaded R s as bs s') (hR : ∀ {s a b s'}, R s a b s' → Extending cx s (f b a) s') :
    ∀ ids, s.Knows cx ids → Extends cx ids s' ((List.zipWith f bs as).flatMap cx.labelled) := by
  induction h with
  | nil s => exact fun ids hs => .nil hs
  | cons hab _ ih =>
    intro ids hs
    rw [List.zipWith_cons_cons, List.flatMap_cons]
    have hfirst := hR hab ids hs
    exact hfirst.append (ih _ hfirst.knows)

end Extends

/-! ## Derivations -/

/-- The derivation extends what is known by the nodes of the schema, with a default that does not matter too. -/
def Extending.Schema (cx : Setting) : Deriving TypeId Schema := fun s id σ s' => ∀ default : Option Value,
  (default.isSome = true → ∀ {d members}, cx.graph.get? id = some d → d.shape ≠ .union members) →
  Extending cx s ⟨id, default, σ⟩ s'

section Step

variable {R : Deriving TypeId Schema} (hR : ∀ {s id σ s'}, R s id σ s' → Extending.Schema cx s id σ s')
include hR

theorem FieldStep.extends {s s' : Progress} {f : Field} {sf : SchemaField Schema} (h : FieldStep cx R s f sf s') :
    Extending cx s ⟨f.type.target, f.default, sf.type⟩ s' := by
  obtain ⟨-, -, hget, htype⟩ := h
  cases htype with
  | bare hf hσ => exact hR hσ _ (by simp [hf])
  | plain hf hu hσ _ =>
    refine hR hσ _ fun _ => ?_
    intro d' members hget'
    cases hget.symm.trans hget'
    exact hu members
  | chosen hf hd hflat hc hσs =>
    intro ids hs
    refine .other hget (by simp [Descriptor.isNamed, hd]) rfl ?_
    simp only [Setting.kids, Setting.orderOf_eq hget hd hflat (hf ▸ orderFor_choose hc)]
    exact hσs.extends (fun h => hR h none (by simp)) ids hs

theorem Body.extends {s t : Progress} {id : TypeId} {d : Descriptor} {σ : Schema} (h : Body cx R s d σ t)
    (hget : cx.graph.get? id = some d) (default : Option Value) (ids : List TypeId) (hs : s.Knows cx ids) :
    Extends cx ids t ((cx.kids ⟨id, default, σ⟩).flatMap cx.labelled) ∧ σ.definedName? = some (cx.fullNameOf d) := by
  cases h with
  | enum | duration => exact ⟨.nil hs, rfl⟩
  | record hd hfs _ =>
    simp only [Setting.kids, TypeGraph.fieldsOf_eq hget hd]
    exact ⟨hfs.extends (fun h => h.extends hR) ids hs, rfl⟩

theorem Parted.extends {s t : Progress} {id : TypeId} {default : Option Value} {d : Descriptor} {σ : Schema}
    (hget : cx.graph.get? id = some d)
    (hu : default.isSome = true → ∀ {d members}, cx.graph.get? id = some d → d.shape ≠ .union members)
    (h : Parted cx R s d σ t) (ids : List TypeId) (hs : s.Knows cx ids) :
    Extends cx ids t ((cx.kids ⟨id, default, σ⟩).flatMap cx.labelled) ∧ σ.definedName? = none := by
  cases h with
  | @union members flat σs _ hd hflat hσs =>
    have ho : cx.OrderFor default flat flat := by
      cases default with
      | none => rfl
      | some v => exact absurd hd (hu rfl hget)
    simp only [Setting.kids, Setting.orderOf_eq hget hd hflat ho]
    exact ⟨hσs.extends (fun h => hR h none (by simp)) ids hs, rfl⟩
  | sequence hd _ hσ | map hd _ _ _ hσ =>
    refine ⟨?_, rfl⟩
    simp only [Setting.kids, TypeGraph.partOf?, hget, hd, Option.map_some, Option.toList_some, List.map_cons,
      List.map_nil, List.flatMap_cons, List.flatMap_nil, List.append_nil]
    exact hR hσ none (by simp) ids hs

/-- **A step extends what is known by the nodes of its schema, if the derivations of the parts do.** -/
theorem Step.extends {s s' : Progress} {id : TypeId} {σ : Schema} (h : Step cx R s id σ s') :
    Extending.Schema cx s id σ s' := by
  intro default hu ids hs
  cases h with
  | leaf hget hl =>
    refine .other hget hl.not_named ?_ ?_
    · cases hl <;> rfl
    · cases hl <;> exact .nil hs
  | reference hget hn _ hknown =>
    obtain ⟨hid, rfl⟩ := hs.nameOf?.mp hknown
    rw [Setting.nameAt_eq hget]
    exact .reference hget hn hid rfl hs
  | @definition _ t _ d _ hget hn _ hnew howner hb =>
    obtain ⟨hext, hdef⟩ := hb.extends hR hget default _ (hs.define hget [])
    exact .definition hget hn (hs.nameOf?_none.mp hnew) (hs.ownerOf?_none.mp howner) hdef ⟨hext.inScope, hext.knows⟩
  | composite hget _ hp =>
    obtain ⟨hext, hdef⟩ := hp.extends hR hget hu ids hs
    exact .other hget hp.not_named hdef ⟨hext.inScope, hext.knows⟩

end Step

theorem Runs.extends {n : Nat} {s s' : Progress} {id : TypeId} {σ : Schema} (h : Runs cx n s id σ s') :
    Extending.Schema cx s id σ s' := runs_induction (fun h => h.extends fun h => h.2) h

/-- **The nodes of a schema are derived from their types, and are in scope.** -/
theorem nodes_of_derive {root : TypeId} {tree : Schema} (h : RuleTable.standard.derive cx root = .ok tree) :
    Derived cx ⟨root, none, tree⟩ ∧ Scoped cx [] (cx.labelled ⟨root, none, tree⟩) := by
  obtain ⟨-, s', hruns⟩ := derive_ok_iff.mp h
  exact ⟨derived_of_runs hruns, (hruns.extends none (by simp) [] rfl).inScope⟩

end Avro
