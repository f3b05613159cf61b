import Avro.Proofs.Tree.Coverage
import Mathlib

/-!
# Each named type is defined once, and before it is referred to

In the order of a schema's text, the first node that stands for a named type is its definition, and all others are
references by the full name of that definition (`DefinedOnce`). References are to definitions that come before, also
from within their own content. All this holds of every schema that is derived from a graph without types that are known
by their names only.
-/

namespace Avro

/-- No type that can be reached is known by its name only. -/
def TypeGraph.NoForward (g : TypeGraph) (root : TypeId) : Prop :=
  ∀ {id d name}, g.Reachable root id → g.get? id = some d → d.shape ≠ .forward name

/-- How named types are defined and referred to by the nodes of the schema of a type. -/
structure DefinedOnce (cx : Setting) (root : TypeId) (tree : Schema) : Prop where
  /-- The labels say which type each node stands for, in the order of the text. -/
  nodes : (cx.labels tree root none).map Node.schema = tree.nodes
  /-- And each node shows its type by nodes of the schema. -/
  shows : ∀ {x}, x ∈ cx.labels tree root none → Translates cx (fun i v σ => ⟨i, v, σ⟩ ∈ cx.labels tree root none)
    (fun _ _ => True) x.type x.default x.schema
  /-- The named types that occur are those that can be reached. -/
  occurs : ∀ {id d}, cx.graph.get? id = some d → d.isNamed = true →
    (cx.graph.Reachable root id ↔ ∃ x ∈ cx.labels tree root none, x.type = id)
  /-- The first node of a named type is its definition. -/
  first : ∀ {before x after d}, cx.labels tree root none = before ++ x :: after → cx.graph.get? x.type = some d →
    d.isNamed = true → (∀ y ∈ before, y.type ≠ x.type) → x.schema.definedName? = some (cx.fullNameOf d)
  /-- Any other node of the type is a reference by the name of the definition. -/
  again : ∀ {before x after d}, cx.labels tree root none = before ++ x :: after → cx.graph.get? x.type = some d →
    d.isNamed = true → (∃ y ∈ before, y.type = x.type) → x.schema = .reference (cx.fullNameOf d)
  /-- Nothing else is a definition. -/
  named : ∀ {x}, x ∈ cx.labels tree root none → x.schema.definedName?.isSome = true →
    ∃ d, cx.graph.get? x.type = some d ∧ d.isNamed = true
  /-- No two definitions have one full name. -/
  distinct : (tree.nodes.filterMap Schema.definedName?).Nodup
  /-- The definition that a reference is to is opened before. -/
  opened : ∀ {before fullName after}, tree.nodes = before ++ .reference fullName :: after →
    ∃ σ ∈ before, σ.definedName? = some fullName

variable {cx : Setting} {d : Descriptor}

/-- A leaf that is a reference is a type that is known by its name only. -/
theorem Leaf.forward_of_reference {fullName : String} (h : Leaf cx d (.reference fullName)) :
    d.shape = .forward fullName := by
  generalize hσ : Schema.reference fullName = σ at h
  cases h with
  | forward hd => cases hσ; exact hd
  | _ => cases hσ

/-- A reference stands for a named type if no type is known by its name only. -/
theorem named_of_reference {r x : Node} (hr : Derived cx r) (hforward : cx.graph.NoForward r.type)
    (hx : x ∈ cx.labelled r) {fullName : String} (href : x.schema = .reference fullName) :
    ∃ d, cx.graph.get? x.type = some d ∧ d.isNamed = true := by
  have htrans := (derived_of_mem hr hx).translates
  rw [href] at htrans
  cases htrans with
  | leaf hget hl => exact absurd hl.forward_of_reference (hforward (reachable_of_mem hr hx) hget)
  | reference hget hn => exact ⟨_, hget, hn⟩

/-- What a reference is to is defined by a node before it. -/
theorem exists_definition_before {r x : Node} (hr : Derived cx r) (hs : Scoped cx [] (cx.labelled r))
    (hforward : cx.graph.NoForward r.type) {before after : List Node} (hsplit : cx.labelled r = before ++ x :: after)
    {fullName : String} (href : x.schema = .reference fullName) :
    ∃ y ∈ before, y.schema.definedName? = some fullName := by
  obtain ⟨d, hget, hn⟩ := named_of_reference hr hforward (by rw [hsplit]; simp) href
  rw [hsplit] at hs
  rcases hs.first_or_again hget hn with ⟨-, hdef⟩ | ⟨⟨y, hy, htype⟩, href'⟩
  · simp [href, Schema.definedName?] at hdef
  · cases href.symm.trans href'
    rw [← htype] at hget
    obtain ⟨z, hz, -, hdef⟩ := ((scoped_append.mp hs).1.exists_definition hget hn hy).resolve_left List.not_mem_nil
    exact ⟨z, hz, hdef⟩

/-- **A schema defines each named type where it first stands, and refers to it from then on.** -/
theorem derive_definedOnce {root : TypeId} {tree : Schema} (hforward : cx.graph.NoForward root)
    (h : RuleTable.standard.derive cx root = .ok tree) : DefinedOnce cx root tree := by
  obtain ⟨hroot, hscope⟩ := nodes_of_derive h
  have hnodes : (cx.labels tree root none).map Node.schema = tree.nodes := map_schema_labelled hroot
  refine ⟨hnodes, fun hx => translates_of_mem hroot hx, ?_, ?_, ?_, ?_, ?_, ?_⟩
  · intro id d hget hn
    constructor
    · exact fun hreach => exists_node hroot hscope hreach hget hn
    · rintro ⟨x, hx, rfl⟩
      exact reachable_of_mem hroot hx
  · intro before x after d hsplit hget hn hnew
    have hscope : Scoped cx [] (before ++ x :: after) := hsplit ▸ hscope
    rcases hscope.first_or_again hget hn with ⟨-, hdef⟩ | ⟨⟨y, hy, htype⟩, -⟩
    · exact hdef
    · exact absurd htype (hnew y hy)
  · rintro before x after d hsplit hget hn ⟨y, hy, htype⟩
    have hscope : Scoped cx [] (before ++ x :: after) := hsplit ▸ hscope
    rcases hscope.first_or_again hget hn with ⟨hnew, -⟩ | ⟨-, href⟩
    · exact absurd htype (hnew y hy)
    · exact href
  · intro x hx hdef
    obtain ⟨fullName, hdef⟩ := Option.isSome_iff_exists.mp hdef
    obtain ⟨d, hget, hn, -⟩ := hscope.definedName hx hdef
    exact ⟨d, hget, hn⟩
  · rw [← hnodes]
    exact hscope.map_nameAt_definitions ▸ hscope.nodup .nil
  · intro before fullName after hsplit
    rw [← hnodes] at hsplit
    obtain ⟨xs, ys, hlabels, rfl, hys⟩ := List.map_eq_append_iff.mp hsplit
    obtain ⟨x, zs, rfl, href, -⟩ := List.map_eq_cons_iff.mp hys
    obtain ⟨y, hy, hdef⟩ := exists_definition_before hroot hscope hforward hlabels href
    exact ⟨y.schema, List.mem_map_of_mem hy, hdef⟩

/-! ## A list -/

/-- Lists of integers, each of which ends with the next one or with nothing. -/
def linkedList : Setting :=
  .of ⟨#[
    some { name := "Node", origin := some "app.models", doc := some "A list.\n\nIt is linked.", shape := .record [
      { name := "value", type := { target := 1 }, default := some (.int 1), doc := some "What it holds." },
      { name := "next", type := { target := 2 }, default := some .null }] },
    some { name := "int", shape := .basic .integer },
    some { name := "Optional", shape := .union [{ target := 0, weak := true }, { target := 3 }] },
    some { name := "None", shape := .basic .null }]⟩ {} none

/-- The schema of lists. -/
def linkedListSchema : Schema :=
  .record ⟨"Node", some "app"⟩ (some "A list.") [
    ⟨"value", .primitive .long, some "What it holds.", some (.int 1)⟩,
    ⟨"next", .union [.primitive .null, .reference "app.Node"], none, some .null⟩]

theorem derive_linkedList : RuleTable.standard.derive linkedList 0 = .ok linkedListSchema := by cbv

theorem linkedList_noForward : linkedList.graph.NoForward 0 := by
  intro id d name _ hget hd
  match id with
  | 0 | 1 | 2 | 3 => cases hget; cases hd
  | _ + 4 => cases hget

theorem definedOnce_linkedList : linkedList.graph.NoForward 0 ∧
    RuleTable.standard.derive linkedList 0 = .ok linkedListSchema ∧ DefinedOnce linkedList 0 linkedListSchema :=
  ⟨linkedList_noForward, derive_linkedList, derive_definedOnce linkedList_noForward derive_linkedList⟩

end Avro
