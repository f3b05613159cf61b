import Avro.Proofs.Definitions
import Avro.Proofs.Names

/-!
# Names as a reader takes them

A reader of a schema takes a name without a dot to be in the namespace that is in force: that of the definition around
it that has one, from the inside out. A definition without a namespace is in the one in force, too. `Setting.withNs`
lists the nodes of a schema with the namespaces in force, and `Schema.readName?` is the full name that a node then
defines or refers to.

For a type that has a namespace this is its full name wherever it stands (`readName?_of_named`). A type that has none
is taken to be in the namespace in force, so its references are to its definition if and only if one namespace is in
force at all of them (`derive_namesAgree`). This holds if no type without a namespace can be reached through one that
has a namespace. Where a type without a namespace is shared by two namespaces it fails (`shared_not_namesAgree`).
-/

namespace Avro

/-! ## Reading -/

namespace Schema

/-- The namespace in force inside a schema, by the one around it. -/
def innerNs (outer : Option String) : Schema → Option String
  | record heading _ _ | enum heading _ _ _ | fixed heading _ _ => heading.ns.or outer
  | _ => outer

/-- The full name that a schema defines or refers to where a namespace is in force. -/
def readName? (outer : Option String) : Schema → Option String
  | record heading _ _ | enum heading _ _ _ | fixed heading _ _ => some (Name.full (heading.ns.or outer) heading.name)
  | reference name => some (if '.' ∈ name.toList then name else Name.full outer name)
  | _ => none

end Schema

/-- The nodes below a node, in the order of the text, each with the namespace in force around it. -/
def Setting.withNs (cx : Setting) (outer : Option String) (x : Node) : List (Option String × Node) :=
  (outer, x) :: (cx.kids x).attach.flatMap fun ⟨k, _⟩ => cx.withNs (x.schema.innerNs outer) k
termination_by sizeOf x.schema
decreasing_by
  rename_i hk
  exact Schema.sizeOf_parts (Setting.schema_mem_parts hk)

variable {cx : Setting} {r x y k : Node} {d d' : Descriptor} {outer e e' : Option String}

theorem Setting.withNs_eq (outer : Option String) (x : Node) : cx.withNs outer x =
    (outer, x) :: (cx.kids x).flatMap (cx.withNs (x.schema.innerNs outer)) := by
  rw [withNs]
  simp

/-- What passes from nodes to their parts, with the namespace in force, holds of all nodes. -/
theorem Setting.withNs_induction {Q : Option String → Node → Prop}
    (hstep : ∀ e x, Q e x → ∀ k ∈ cx.kids x, Q (x.schema.innerNs e) k) (outer : Option String) (r : Node)
    (hr : Q outer r) : ∀ {e x}, (e, x) ∈ cx.withNs outer r → Q e x := by
  intro e x hx
  rw [withNs_eq] at hx
  rcases List.mem_cons.mp hx with heq | hx
  · cases heq
    exact hr
  · obtain ⟨k, hk, hx⟩ := List.mem_flatMap.mp hx
    exact withNs_induction hstep _ k (hstep outer r hr k hk) hx
termination_by sizeOf r.schema
decreasing_by exact Schema.sizeOf_parts (Setting.schema_mem_parts hk)

theorem Setting.map_snd_withNs (outer : Option String) (x : Node) :
    (cx.withNs outer x).map Prod.snd = cx.labelled x := by
  rw [withNs_eq, labelled_eq, List.map_cons, List.map_flatMap]
  congr 1
  apply List.flatMap_congr
  intro k hk
  exact map_snd_withNs _ k
termination_by sizeOf x.schema
decreasing_by exact Schema.sizeOf_parts (Setting.schema_mem_parts hk)

theorem Setting.mem_labelled_of_withNs (h : (e, x) ∈ cx.withNs outer r) : x ∈ cx.labelled r := by
  rw [← map_snd_withNs outer r]
  exact List.mem_map_of_mem (f := Prod.snd) h

theorem Setting.exists_withNs (h : x ∈ cx.labelled r) : ∃ e, (e, x) ∈ cx.withNs outer r := by
  rw [← map_snd_withNs outer r] at h
  obtain ⟨⟨e, _⟩, hx, rfl⟩ := List.mem_map.mp h
  exact ⟨e, hx⟩

/-- Each reference to a named type is read as one to its definition, and no two types are read under one name. -/
structure NamesAgree (cx : Setting) (r : Node) : Prop where
  refers : ∀ {e x d fullName}, (e, x) ∈ cx.withNs none r → cx.graph.get? x.type = some d → d.isNamed = true →
    x.schema = .reference fullName → ∃ e' y, (e', y) ∈ cx.withNs none r ∧ y.type = x.type ∧
      y.schema.definedName?.isSome = true ∧ y.schema.readName? e' = x.schema.readName? e
  distinct : ∀ {e x e' y}, (e, x) ∈ cx.withNs none r → (e', y) ∈ cx.withNs none r →
    x.schema.definedName?.isSome = true → y.schema.definedName?.isSome = true →
    x.schema.readName? e = y.schema.readName? e' → x.type = y.type

/-- A type without a namespace stands where one namespace is in force, and no type of that namespace has its name. -/
structure SteadyNames (cx : Setting) (r : Node) : Prop where
  one : ∀ {e x e' y d}, (e, x) ∈ cx.withNs none r → (e', y) ∈ cx.withNs none r → x.type = y.type →
    cx.graph.get? x.type = some d → d.isNamed = true → cx.nsOf d = none → e = e'
  free : ∀ {ns x d e y d'}, (some ns, x) ∈ cx.withNs none r → cx.graph.get? x.type = some d → d.isNamed = true →
    cx.nsOf d = none → (e, y) ∈ cx.withNs none r → cx.graph.get? y.type = some d' → d'.isNamed = true →
    cx.fullNameOf d' ≠ Name.full (some ns) d.name

/-- The type can be reached through a named type that has a namespace. -/
def Setting.UnderNs (cx : Setting) (root id : TypeId) : Prop :=
  ∃ a d, cx.graph.Reachable root a ∧ cx.graph.get? a = some d ∧ d.isNamed = true ∧ (cx.nsOf d).isSome = true ∧
    cx.graph.Reachable a id

/-- No named type without a namespace can be reached through one that has a namespace. -/
def Setting.KeepsNs (cx : Setting) (root : TypeId) : Prop :=
  ∀ {id d}, cx.UnderNs root id → cx.graph.get? id = some d → d.isNamed = true → (cx.nsOf d).isSome = true

/-! ## Nodes of named types -/

/-- A definition has the namespace of its type inside it, or that around it. -/
theorem Translates.innerNs {M : Shows} {Ref : TypeId → String → Prop} {id : TypeId} {default : Option Value}
    {σ : Schema} (h : Translates cx M Ref id default σ) (outer : Option String) : σ.innerNs outer = outer ∨
      ∃ d, cx.graph.get? id = some d ∧ d.isNamed = true ∧ σ.innerNs outer = (cx.nsOf d).or outer := by
  cases h with
  | leaf _ hl => cases hl <;> exact .inl rfl
  | reference | union | sequence | map => exact .inl rfl
  | record hget _ hd | enum hget _ hd | duration hget _ hd =>
    exact .inr ⟨_, hget, by simp [Descriptor.isNamed, hd], rfl⟩

/-- The namespaces in force are not empty. -/
theorem proper_withNs (hr : Derived cx r) (h : (e, x) ∈ cx.withNs none r) : Name.Proper e := by
  refine (Setting.withNs_induction (Q := fun e x => Derived cx x ∧ Name.Proper e) ?_ none r
    ⟨hr, Name.proper_none⟩ h).2
  rintro e x ⟨hx, he⟩ k hk
  refine ⟨hx.translates.of_kids hk, ?_⟩
  rcases hx.translates.innerNs e with heq | ⟨d, -, -, heq⟩
  · rw [heq]
    exact he
  · rw [heq]
    exact (cx.proper_nsOf d).or he

/-- A reference is read as it stands if its type has a namespace, and else with the namespace in force. -/
theorem readName?_reference (hv : cx.ValidHeading d) (outer : Option String) :
    (Schema.reference (cx.fullNameOf d)).readName? outer = some (Name.full ((cx.nsOf d).or outer) d.name) := by
  simp only [Schema.readName?]
  cases hns : cx.nsOf d with
  | none => simp [cx.fullNameOf_eq d, hns, Name.full_none, Name.dot_notMem_of_check hv.name]
  | some ns =>
    rw [if_pos (cx.dot_mem_fullNameOf d hns), cx.fullNameOf_eq, hns]
    rfl

/-- **A node of a named type is read under the name of the type in its namespace, or in that in force if it has none.** -/
theorem readName?_of_named (hr : Derived cx r) (hs : Scoped cx [] (cx.labelled r)) (hx : x ∈ cx.labelled r)
    (hget : cx.graph.get? x.type = some d) (hn : d.isNamed = true) (outer : Option String) :
    cx.ValidHeading d ∧ x.schema.readName? outer = some (Name.full ((cx.nsOf d).or outer) d.name) := by
  have hstands := hs.definition_or_reference hget hn hx
  have htrans := (derived_of_mem hr hx).translates
  obtain ⟨id, default, σ⟩ := x
  cases htrans with
  | leaf hget' hl =>
    cases hget.symm.trans hget'
    simp [hl.not_named] at hn
  | reference hget' _ hv =>
    cases hget.symm.trans hget'
    rcases hstands with hdef | href
    · cases hdef
    · cases href
      exact ⟨hv, readName?_reference hv outer⟩
  | record hget' hv | enum hget' hv | duration hget' hv =>
    cases hget.symm.trans hget'
    exact ⟨hv, rfl⟩
  | union hget' hd | sequence hget' hd | map hget' hd =>
    cases hget.symm.trans hget'
    simp [Descriptor.isNamed, hd] at hn

/-! ## Definitions -/

section Agreement

variable (hr : Derived cx r) (hs : Scoped cx [] (cx.labelled r))

include hs in
/-- A type has one definition, in one place. -/
theorem eq_of_defined (hx : (e, x) ∈ cx.withNs none r) (hy : (e', y) ∈ cx.withNs none r)
    (hdx : x.schema.definedName?.isSome = true) (hdy : y.schema.definedName?.isSome = true) (htype : x.type = y.type) :
    (e, x) = (e', y) := by
  have hdefs : definitions (cx.labelled r) =
      ((cx.withNs none r).filter fun p => p.2.schema.definedName?.isSome).map fun p => p.2.type := by
    rw [← Setting.map_snd_withNs none r, definitions, List.filter_map, List.map_map]
    rfl
  have hnodup : (definitions (cx.labelled r)).Nodup := List.Nodup.of_map cx.nameAt (hs.nodup .nil)
  rw [hdefs] at hnodup
  exact List.inj_on_of_nodup_map hnodup (List.mem_filter.mpr ⟨hx, hdx⟩) (List.mem_filter.mpr ⟨hy, hdy⟩) htype

include hs in
/-- Types that have one full name are one type. -/
theorem type_eq_of_fullName (hx : x ∈ cx.labelled r) (hy : y ∈ cx.labelled r) (hget : cx.graph.get? x.type = some d)
    (hn : d.isNamed = true) (hget' : cx.graph.get? y.type = some d') (hn' : d'.isNamed = true)
    (h : cx.fullNameOf d = cx.fullNameOf d') : x.type = y.type := by
  have hname : cx.nameAt x.type = cx.nameAt y.type := by rw [Setting.nameAt_eq hget, Setting.nameAt_eq hget', h]
  have hnodup := hs.nodup .nil
  rw [List.nil_append] at hnodup
  exact List.inj_on_of_nodup_map hnodup (hs.mem_definitions_of_mem hget hn hx) (hs.mem_definitions_of_mem hget' hn' hy)
    hname

include hs in
/-- Where the names agree, each node of a named type is read under the name of a definition of the type. -/
theorem NamesAgree.definition (h : NamesAgree cx r) (hx : (e, x) ∈ cx.withNs none r)
    (hget : cx.graph.get? x.type = some d) (hn : d.isNamed = true) : ∃ e' y, (e', y) ∈ cx.withNs none r ∧
      y.type = x.type ∧ y.schema.definedName?.isSome = true ∧ y.schema.readName? e' = x.schema.readName? e := by
  rcases hs.definition_or_reference hget hn (Setting.mem_labelled_of_withNs hx) with hdef | href
  · exact ⟨e, x, hx, rfl, by simp [hdef], rfl⟩
  · exact h.refers hx hget hn href

/-! ## When names agree -/

include hr hs

theorem NamesAgree.steadyNames (h : NamesAgree cx r) : SteadyNames cx r where
  one {e x e' y d} hx hy htype hget hn hns := by
    obtain ⟨e₁, z, hz, hztype, hzdef, hzread⟩ := h.definition hs hx hget hn
    rw [htype] at hget
    obtain ⟨e₂, w, hw, hwtype, hwdef, hwread⟩ := h.definition hs hy hget hn
    -- both are read under the name of the one definition
    cases eq_of_defined hs hz hw hzdef hwdef (hztype.trans (htype.trans hwtype.symm))
    obtain ⟨hv, hyread⟩ := readName?_of_named hr hs (Setting.mem_labelled_of_withNs hy) hget hn e'
    rw [← htype] at hget
    obtain ⟨-, hxread⟩ := readName?_of_named hr hs (Setting.mem_labelled_of_withNs hx) hget hn e
    have hread := hxread.symm.trans (hzread.symm.trans (hwread.trans hyread))
    rw [hns, Option.none_or, Option.none_or, Option.some.injEq] at hread
    have hdot := Name.dot_notMem_of_check hv.name
    exact (Name.full_inj (proper_withNs hr hx) (proper_withNs hr hy) hdot hdot hread).1
  free {ns x d e y d'} hx hget hn hns hy hget' hn' hname := by
    obtain ⟨e₁, z, hz, hztype, hzdef, hzread⟩ := h.definition hs hx hget hn
    obtain ⟨e₂, w, hw, hwtype, hwdef, hwread⟩ := h.definition hs hy hget' hn'
    obtain ⟨hv, hxread⟩ := readName?_of_named hr hs (Setting.mem_labelled_of_withNs hx) hget hn (some ns)
    obtain ⟨hv', hyread⟩ := readName?_of_named hr hs (Setting.mem_labelled_of_withNs hy) hget' hn' e
    obtain ⟨hns', hname'⟩ := Name.full_inj (cx.proper_nsOf d') (proper_withNs hr hx) (Name.dot_notMem_of_check hv'.name)
      (Name.dot_notMem_of_check hv.name) hname
    rw [hns, Option.none_or] at hxread
    rw [hns', Option.some_or, hname'] at hyread
    have htype := h.distinct hz hw hzdef hwdef (hzread.trans (hxread.trans (hyread.symm.trans hwread.symm)))
    rw [← hztype, htype, hwtype, hget'] at hget
    cases hget
    cases hns.symm.trans hns'

theorem SteadyNames.namesAgree (h : SteadyNames cx r) : NamesAgree cx r where
  refers {e x d fullName} hx hget hn href := by
    have hxmem := Setting.mem_labelled_of_withNs hx
    obtain ⟨y, hymem, htype, hdef⟩ := hs.exists_definition_of_reference hxmem hget hn href
    obtain ⟨e', hy⟩ := Setting.exists_withNs hymem
    obtain ⟨-, hxread⟩ := readName?_of_named hr hs hxmem hget hn e
    rw [← htype] at hget
    obtain ⟨-, hyread⟩ := readName?_of_named hr hs hymem hget hn e'
    refine ⟨e', y, hy, htype, by simp [hdef], hyread.trans (.trans ?_ hxread.symm)⟩
    cases hns : cx.nsOf d with
    | none => rw [h.one hy hx htype hget hn hns]
    | some ns => rfl
  distinct {e x e' y} hx hy hdx hdy hread := by
    have hxmem := Setting.mem_labelled_of_withNs hx
    have hymem := Setting.mem_labelled_of_withNs hy
    obtain ⟨_, hdx⟩ := Option.isSome_iff_exists.mp hdx
    obtain ⟨_, hdy⟩ := Option.isSome_iff_exists.mp hdy
    obtain ⟨d, hget, hn, -⟩ := hs.definedName hxmem hdx
    obtain ⟨d', hget', hn', -⟩ := hs.definedName hymem hdy
    obtain ⟨hv, hxread⟩ := readName?_of_named hr hs hxmem hget hn e
    obtain ⟨hv', hyread⟩ := readName?_of_named hr hs hymem hget' hn' e'
    obtain ⟨hns, hname⟩ := Name.full_inj ((cx.proper_nsOf d).or (proper_withNs hr hx))
      ((cx.proper_nsOf d').or (proper_withNs hr hy)) (Name.dot_notMem_of_check hv.name)
      (Name.dot_notMem_of_check hv'.name) (Option.some.inj (hxread.symm.trans (hread.trans hyread)))
    -- two types that both have a namespace, or both have none, have one full name
    have hsame (hnsOf : cx.nsOf d = cx.nsOf d') : x.type = y.type :=
      type_eq_of_fullName hs hxmem hymem hget hn hget' hn' (by
        rw [cx.fullNameOf_eq, cx.fullNameOf_eq, hnsOf, hname])
    cases hnsd : cx.nsOf d <;> cases hnsd' : cx.nsOf d' <;> rw [hnsd, hnsd'] at hns
    case none.none => exact hsame (hnsd.trans hnsd'.symm)
    case some.some => exact hsame (hnsd.trans (hns.trans hnsd'.symm))
    case none.some =>
      obtain rfl : e = _ := hns
      exact absurd (by rw [← hnsd', hname]; rfl) (h.free hx hget hn hnsd hy hget' hn')
    case some.none =>
      obtain rfl : _ = e' := hns
      exact absurd (by rw [← hnsd, ← hname]; rfl) (h.free hy hget' hn' hnsd' hx hget hn)

end Agreement

/-! ## Namespaces that are kept -/

theorem Setting.UnderNs.trans {root id part : TypeId} (h : cx.UnderNs root id) (hpart : cx.graph.Reachable id part) :
    cx.UnderNs root part := by
  obtain ⟨a, d, ha, hget, hn, hns, hid⟩ := h
  exact ⟨a, d, ha, hget, hn, hns, hid.trans hpart⟩

/-- A namespace is in force only at types that can be reached through one that has a namespace. -/
theorem underNs_of_withNs (hr : Derived cx r) (h : (e, x) ∈ cx.withNs none r) : e = none ∨ cx.UnderNs r.type x.type := by
  refine (Setting.withNs_induction (Q := fun e x => (Derived cx x ∧ cx.graph.Reachable r.type x.type) ∧
    (e = none ∨ cx.UnderNs r.type x.type)) ?_ none r ⟨⟨hr, .refl⟩, .inl rfl⟩ h).2
  rintro e x ⟨⟨hx, hreach⟩, he⟩ k hk
  have hkid := hx.translates.reachable_kids hk
  refine ⟨⟨hx.translates.of_kids hk, hreach.trans hkid⟩, ?_⟩
  have houter : e = none ∨ cx.UnderNs r.type k.type := he.imp_right fun h => h.trans hkid
  rcases hx.translates.innerNs e with heq | ⟨d, hget, hn, heq⟩
  · rwa [heq]
  · cases hns : cx.nsOf d with
    | none => rwa [heq, hns, Option.none_or]
    | some ns => exact .inr ⟨x.type, d, hreach, hget, hn, by simp [hns], hkid⟩

/-- If namespaces are kept, a type without one stands where none is in force. -/
theorem Setting.KeepsNs.steadyNames (hr : Derived cx r) (h : cx.KeepsNs r.type) : SteadyNames cx r := by
  have hnone : ∀ {e x d}, (e, x) ∈ cx.withNs none r → cx.graph.get? x.type = some d → d.isNamed = true →
      cx.nsOf d = none → e = none := by
    intro e x d hx hget hn hns
    refine (underNs_of_withNs hr hx).resolve_right fun hunder => ?_
    simpa [hns] using h hunder hget hn
  constructor
  · intro e x e' y d hx hy htype hget hn hns
    rw [hnone hx hget hn hns, hnone hy (htype ▸ hget) hn hns]
  · intro ns x d e y d' hx hget hn hns
    cases hnone hx hget hn hns

/--
**The names of a schema agree with how a reader takes them if and only if each type without a namespace stands in one
namespace, where no other type has its name.** So it is if no type without a namespace can be reached through one that
has a namespace.
-/
theorem derive_namesAgree {root : TypeId} {tree : Schema} (h : RuleTable.standard.derive cx root = .ok tree) :
    (NamesAgree cx ⟨root, none, tree⟩ ↔ SteadyNames cx ⟨root, none, tree⟩) ∧
      (cx.KeepsNs root → NamesAgree cx ⟨root, none, tree⟩) := by
  obtain ⟨hroot, hscope⟩ := nodes_of_derive h
  refine ⟨⟨fun h => h.steadyNames hroot hscope, fun h => h.namesAgree hroot hscope⟩, fun hkeeps => ?_⟩
  have hsteady : SteadyNames cx ⟨root, none, tree⟩ := hkeeps.steadyNames hroot
  exact hsteady.namesAgree hroot hscope

/-! ## A type in two namespaces -/

/-- Two records that share an enumeration without a namespace. The outer record is in the namespace `shop`. -/
def shared (origin : String) : Setting :=
  .of ⟨#[
    some { name := "Order", origin := some "shop", shape := .record [
      { name := "state", type := { target := 2 } },
      { name := "item", type := { target := 1 } }] },
    some { name := "Item", origin := some origin, shape := .record [{ name := "state", type := { target := 2 } }] },
    some { name := "State", shape := .enum ["open", "done"] }]⟩ {} none

/-- The schema of the records. -/
def sharedSchema (ns : String) : Schema :=
  .record ⟨"Order", some "shop"⟩ none [
    ⟨"state", .enum ⟨"State", none⟩ none ["open", "done"] "open", none, none⟩,
    ⟨"item", .record ⟨"Item", some ns⟩ none [⟨"state", .reference "State", none, none⟩], none, none⟩]

theorem withNs_shared (ns : String) : (shared ns).withNs none ⟨0, none, sharedSchema ns⟩ = [
    (none, ⟨0, none, sharedSchema ns⟩),
    (some "shop", ⟨2, none, .enum ⟨"State", none⟩ none ["open", "done"] "open"⟩),
    (some "shop", ⟨1, none, .record ⟨"Item", some ns⟩ none [⟨"state", .reference "State", none, none⟩]⟩),
    (some ns, ⟨2, none, .reference "State"⟩)] := by
  simp [Setting.withNs_eq, Setting.kids, sharedSchema, Schema.innerNs, TypeGraph.fieldsOf, TypeGraph.get?, shared,
    Setting.of, Descriptor.fields?]

theorem namesAgree_shared : RuleTable.standard.derive (shared "shop") 0 = .ok (sharedSchema "shop") ∧
    NamesAgree (shared "shop") ⟨0, none, sharedSchema "shop"⟩ := by
  have hderive : RuleTable.standard.derive (shared "shop") 0 = .ok (sharedSchema "shop") := by cbv
  refine ⟨hderive, (derive_namesAgree hderive).1.mpr ⟨?_, ?_⟩⟩
  · intro e x e' y d hx hy htype hget hn hns
    rw [withNs_shared] at hx hy
    simp at hx hy
    rcases hx with ⟨rfl, rfl⟩ | ⟨rfl, rfl⟩ | ⟨rfl, rfl⟩ | ⟨rfl, rfl⟩ <;>
      rcases hy with ⟨rfl, rfl⟩ | ⟨rfl, rfl⟩ | ⟨rfl, rfl⟩ | ⟨rfl, rfl⟩ <;> simp at htype ⊢
  · intro ns x d e y d' hx hget hn hns hy hget' hn'
    rw [withNs_shared] at hx hy
    simp at hx hy
    rcases hx with ⟨rfl, rfl⟩ | ⟨rfl, rfl⟩ | ⟨rfl, rfl⟩ <;> cases hget
    · rcases hy with ⟨rfl, rfl⟩ | ⟨rfl, rfl⟩ | ⟨rfl, rfl⟩ | ⟨rfl, rfl⟩ <;> cases hget' <;> decide +kernel
    · cases hns
    · rcases hy with ⟨rfl, rfl⟩ | ⟨rfl, rfl⟩ | ⟨rfl, rfl⟩ | ⟨rfl, rfl⟩ <;> cases hget' <;> decide +kernel

/-- A type without a namespace may be referred to where its name is read in another namespace. -/
theorem shared_not_namesAgree : RuleTable.standard.derive (shared "app") 0 = .ok (sharedSchema "app") ∧
    ¬ NamesAgree (shared "app") ⟨0, none, sharedSchema "app"⟩ := by
  refine ⟨by cbv, fun hagree => ?_⟩
  have href : (some "app", (⟨2, none, .reference "State"⟩ : Node)) ∈
      (shared "app").withNs none ⟨0, none, sharedSchema "app"⟩ := by simp [withNs_shared]
  obtain ⟨e, y, hy, htype, hdef, hread⟩ := hagree.refers href rfl rfl rfl
  rw [withNs_shared] at hy
  simp at hy
  rcases hy with ⟨rfl, rfl⟩ | ⟨rfl, rfl⟩ | ⟨rfl, rfl⟩ | ⟨rfl, rfl⟩
  · cases htype
  · -- the definition is read in the namespace of the order
    have hne : Schema.readName? (some "shop") (.enum ⟨"State", none⟩ none ["open", "done"] "open") ≠
        Schema.readName? (some "app") (.reference "State") := by decide +kernel
    exact hne hread
  · cases htype
  · cases hdef

end Avro
