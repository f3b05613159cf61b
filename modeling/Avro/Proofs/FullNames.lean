import Avro.Proofs.Derivation.Calls
import Avro.Proofs.Derivation.Runs
import Avro.Proofs.Words

/-!
# Full names stand for types

A namespace that is accepted is names with dots between them (`Name.checkNamespace_ok_iff`), and a full name has one
more of them. Names have no dots, so a full name is that of one name in one namespace. It is accepted like a namespace,
and a type that is known only by it has the schema that stands at all occurrences but the first of the type that has it
(`fullNames_identify`).
-/

namespace Avro

namespace Name

/-! ## Names with dots between them -/

/-- The text is one name, or several with dots between them. -/
def Joins (names : List String) (s : String) : Prop :=
  names ≠ [] ∧ (∀ n ∈ names, check n = .ok ()) ∧ s = ".".intercalate names

variable {name s : String} {names : List String} {ns : Option String}

theorem check_ok_iff : check name = .ok () ↔ isName name.toList = true := by
  unfold check
  split <;> simp_all

theorem checkNamespace_ok_iff_segments (hne : s ≠ "") :
    checkNamespace s = .ok () ↔ ∀ l ∈ segments s.toList, isName l = true := by
  unfold checkNamespace
  rw [if_neg (by simpa using hne)]
  cases hfind : (segments s.toList).find? fun l => !isName l with
  | none => simpa using hfind
  | some l =>
    have hmem := List.mem_of_find?_eq_some hfind
    have hnot : isName l = false := by simpa using List.find?_some hfind
    simp only [reduceCtorEq, false_iff, not_forall]
    exact ⟨l, hmem, by simp [hnot]⟩

/-- Names are the segments of what they are joined to. -/
theorem Joins.segments_eq (h : Joins names s) : segments s.toList = names.map String.toList := by
  obtain ⟨hne, hnames, rfl⟩ := h
  have hdot : ∀ l ∈ names.map String.toList, '.' ∉ l := by
    intro l hl
    obtain ⟨n, hn, rfl⟩ := List.mem_map.mp hl
    exact dot_notMem_of_check (hnames n hn)
  rw [segments_eq_splitOn, String.toList_intercalate]
  exact List.splitOn_intercalate '.' hdot (by simpa using hne)

theorem joins_segments (h : ∀ l ∈ segments s.toList, isName l = true) :
    Joins ((segments s.toList).map String.ofList) s := by
  refine ⟨by simp [segments_ne_nil], ?_, ?_⟩
  · intro n hn
    obtain ⟨l, hl, rfl⟩ := List.mem_map.mp hn
    rw [check_ok_iff, String.toList_ofList]
    exact h l hl
  · apply String.toList_inj.mp
    simp [String.toList_intercalate, intercalate_segments, Function.comp_def]

theorem Joins.ne_empty (h : Joins names s) : s ≠ "" := by
  rintro rfl
  have hsegments : [[]] = names.map String.toList := h.segments_eq
  obtain ⟨n, ns, rfl⟩ := List.exists_cons_of_ne_nil h.1
  have hcheck := check_ok_iff.mp (h.2.1 n List.mem_cons_self)
  rw [List.map_cons, List.cons.injEq] at hsegments
  rw [← hsegments.1] at hcheck
  cases hcheck

/-- **A namespace is accepted if and only if it is empty or names with dots between them.** -/
theorem checkNamespace_ok_iff : checkNamespace s = .ok () ↔ s = "" ∨ ∃ names, Joins names s := by
  by_cases hne : s = ""
  · subst hne
    simp [checkNamespace]
  · rw [checkNamespace_ok_iff_segments hne, or_iff_right hne]
    constructor
    · exact fun h => ⟨_, joins_segments h⟩
    · rintro ⟨names, h⟩ l hl
      rw [h.segments_eq] at hl
      obtain ⟨n, hn, rfl⟩ := List.mem_map.mp hl
      exact check_ok_iff.mp (h.2.1 n hn)

/-! ## Full names -/

/-- No namespace, or one that is accepted. -/
def Accepted (ns : Option String) : Prop := ∀ n, ns = some n → checkNamespace n = .ok ()

/-- The full name of a name in a namespace is one name more than the namespace. -/
theorem joins_full (hns : Accepted ns) (hname : check name = .ok ()) : ∃ names, Joins names (full ns name) := by
  have hone : Joins [name] name := ⟨by simp, by simpa using hname, by simp⟩
  cases ns with
  | none => exact ⟨[name], hone⟩
  | some n =>
    rcases checkNamespace_ok_iff.mp (hns n rfl) with rfl | ⟨names, hjoins⟩
    · exact ⟨[name], hone⟩
    · rw [full_some hjoins.ne_empty]
      obtain ⟨hne, hnames, rfl⟩ := hjoins
      refine ⟨names ++ [name], by simp, ?_, (intercalate_dot_concat hne name).symm⟩
      exact List.forall_mem_append.mpr ⟨hnames, by simpa using hname⟩

/-- The empty namespace is none. -/
theorem full_nonempty? (ns : Option String) (name : String) : full (nonempty? ns) name = full ns name := by
  cases ns with
  | none => rfl
  | some n =>
    by_cases hn : n = ""
    · subst hn
      rfl
    · rw [nonempty?, if_neg (by simpa using hn)]

end Name

/-! ## Types under their full names -/

open Name

/-- Full names stand for one namespace and name, and for the types that have them. -/
structure FullNamesIdentify : Prop where
  /-- Equal full names are of one name in one namespace, where the empty one is none. -/
  injective : ∀ {ns ns' : Option String} {name name' : String}, check name = .ok () → check name' = .ok () →
    full ns name = full ns' name' → name = name' ∧ nonempty? ns = nonempty? ns'
  /-- A namespace is accepted if and only if it is empty or names with dots between them. -/
  namespaces : ∀ {s : String}, checkNamespace s = .ok () ↔ s = "" ∨ ∃ names, Joins names s
  /-- Full names are such names, and so are accepted themselves. -/
  accepted : ∀ {ns : Option String} {name : String}, Accepted ns → check name = .ok () →
    (∃ names, Joins names (full ns name)) ∧ checkNamespace (full ns name) = .ok ()
  /-- A type that is known only by a full name has the reference by it for its schema, whatever has been derived. -/
  forward : ∀ {cx : Setting} {id : TypeId} {d : Descriptor} {ns : Option String} {name : String},
    cx.graph.get? id = some d → d.shape = .forward (full ns name) → Accepted ns → check name = .ok () →
    ∀ n s, (cx.schemaWithin (n + 1) id).runFrom s = some (.ok (.reference (full ns name)), s)
  /-- A named type that a derivation from the start comes to again is known by its full name, of valid parts, and that
  reference is its schema. So it is the one of a type that is known only by the full name. -/
  again : ∀ {cx : Setting} {n root k : Nat} {fs : List Frame} {s : Progress} {id : TypeId} {d : Descriptor}
    {known : String}, Entered cx n {} root (k + 1) fs s id → cx.graph.get? id = some d →
    s.registry.nameOf? id = some known →
      Accepted (cx.nsOf d) ∧ check d.name = .ok () ∧ known = full (cx.nsOf d) d.name ∧
      (cx.schemaWithin (k + 1) id).runFrom s = some (.ok (.reference known), s) ∧
      ∀ {id' d'}, cx.graph.get? id' = some d' → d'.shape = .forward known →
        (cx.schemaWithin (k + 1) id').runFrom s = (cx.schemaWithin (k + 1) id).runFrom s

/-- The schema of a type that is known only by its name. -/
theorem runFrom_forward {cx : Setting} {id : TypeId} {d : Descriptor} {ns : Option String} {name : String}
    (hget : cx.graph.get? id = some d) (hd : d.shape = .forward (full ns name)) (hns : Accepted ns)
    (hname : check name = .ok ()) (n : Nat) (s : Progress) :
    (cx.schemaWithin (n + 1) id).runFrom s = some (.ok (.reference (full ns name)), s) := by
  obtain ⟨names, hjoins⟩ := joins_full hns hname
  have hcheck : checkNamespace (full ns name) = .ok () := checkNamespace_ok_iff.mpr (.inr ⟨names, hjoins⟩)
  have hleaf : Leaf cx d (.reference (full ns name)) := .forward hd (by simpa using hjoins.ne_empty) hcheck
  have hrun : Runs cx (n + 1) s id (.reference (full ns name)) s := runs_succ_iff.mpr (.leaf hget hleaf)
  exact hrun

/-- The schema of a named type that is defined already. -/
theorem runFrom_known {cx : Setting} {id : TypeId} {d : Descriptor} {s : Progress} {known : String}
    (hget : cx.graph.get? id = some d) (hn : d.isNamed = true) (hvalid : cx.ValidHeading d)
    (hknown : s.registry.nameOf? id = some known) (n : Nat) :
    (cx.schemaWithin (n + 1) id).runFrom s = some (.ok (.reference known), s) := by
  have hrun : Runs cx (n + 1) s id (.reference known) s := runs_succ_iff.mpr (.reference hget hn hvalid hknown)
  exact hrun

/-- **Full names identify namespace and name**, and stand for the types that have them. -/
theorem fullNames_identify : FullNamesIdentify where
  injective {ns ns' name name'} hname hname' h := by
    rw [← full_nonempty? ns, ← full_nonempty? ns'] at h
    exact (full_inj (proper_nonempty? ns) (proper_nonempty? ns') (dot_notMem_of_check hname)
      (dot_notMem_of_check hname') h).symm
  namespaces := checkNamespace_ok_iff
  accepted hns hname := by
    have hjoins := joins_full hns hname
    exact ⟨hjoins, checkNamespace_ok_iff.mpr (.inr hjoins)⟩
  forward := runFrom_forward
  again {cx n root k fs s id d known} hentered hget hknown := by
    obtain ⟨d', hget', hn, hvalid, rfl⟩ := hentered.grows.names hknown
    cases hget.symm.trans hget'
    have hrun := runFrom_known hget hn hvalid hknown k
    refine ⟨hvalid.ns, hvalid.name, rfl, hrun, fun hforward hd => ?_⟩
    rw [hrun]
    exact runFrom_forward hforward hd hvalid.ns hvalid.name k s

/-- A node of a tree refers to itself and, by its full name, to what may be declared elsewhere. -/
def treeNodes : Setting := .of ⟨#[
  some { name := "Node", shape := .record [
    { name := "left", type := { target := 0, weak := true } }, { name := "right", type := { target := 1 } }] },
  some { name := "Node", shape := .forward "tree.Node" }]⟩ {} (some "tree")

/-- The derivation of a node comes to the node again, at its field on the left. There both types have one schema. -/
theorem fullNames_identify_node :
    Entered treeNodes 3 {} 0 2 [.definition 0] ⟨⟨[(0, "tree.Node")]⟩, []⟩ 0 ∧
    (treeNodes.schemaWithin 2 0).runFrom ⟨⟨[(0, "tree.Node")]⟩, []⟩ =
      some (.ok (.reference "tree.Node"), ⟨⟨[(0, "tree.Node")]⟩, []⟩) ∧
    (treeNodes.schemaWithin 2 1).runFrom ⟨⟨[(0, "tree.Node")]⟩, []⟩ =
      (treeNodes.schemaWithin 2 0).runFrom ⟨⟨[(0, "tree.Node")]⟩, []⟩ ∧
    (treeNodes.schemaWithin 1 1).runFrom {} = some (.ok (.reference (full (some "tree") "Node")), {}) := by
  have hentered : Entered treeNodes 3 {} 0 2 [.definition 0] ⟨⟨[(0, "tree.Node")]⟩, []⟩ 0 := by
    refine .call .start fun e => ⟨⟨⟨[(0, "tree.Node")]⟩, []⟩, ?_⟩
    cbv
  obtain ⟨-, -, -, hreference, hforward⟩ := fullNames_identify.again hentered rfl rfl
  have htree : Accepted (some "tree") := by
    rintro _ ⟨⟩
    rfl
  exact ⟨hentered, hreference, hforward rfl rfl, fullNames_identify.forward rfl rfl htree rfl 0 {}⟩

example : RuleTable.standard.derive treeNodes 0 =
    .ok (.record ⟨"Node", some "tree"⟩ none [
      ⟨"left", .reference "tree.Node", none, none⟩, ⟨"right", .reference "tree.Node", none, none⟩]) := by cbv

end Avro
