import Avro.Proofs.Conformance.Branches
import Avro.Proofs.Symbols
import Avro.Proofs.Tree.Namespaces
import Avro.Proofs.Words

/-!
# Schemas that are derived are well formed

Names are words and namespaces are paths; the fields of a record have distinct names, the symbols of an enumeration
are those that the type declares, each once, and decimals have a precision and a scale that fit. This can be read off
each node and its type. That a union shows no union (`not_union_of_kid`) and no named type twice
(`nodup_denoted_of_union`) takes the members of the union, which are distinct types, and the definitions of the whole
schema, by which distinct types have distinct full names. All this is `WellFormed`, and every schema has it that is
derived from a graph without types that are known by their names only (`derive_wellFormed`).
-/

namespace Avro

namespace Schema

/-- The heading of a definition. -/
def heading? : Schema → Option Heading
  | record heading _ _ | enum heading _ _ _ | fixed heading _ _ => some heading
  | _ => none

/-- The full name of the named type that a schema defines or refers to. -/
def denotedName? : Schema → Option String
  | reference fullName => some fullName
  | σ => σ.definedName?

end Schema

/-- Precision and scale among the attributes of a decimal. -/
inductive DecimalAttributes : List (String × Json) → Prop
  | unscaled {precision : Int} : 1 ≤ precision → DecimalAttributes [("precision", .int precision)]
  | scaled {precision scale : Int} :
      1 ≤ precision → 0 ≤ scale → scale ≤ precision →
      DecimalAttributes [("precision", .int precision), ("scale", .int scale)]

/-- What all nodes of the schema of a type keep to. -/
structure WellFormed (cx : Setting) (root : TypeId) (tree : Schema) : Prop where
  headings : ∀ {σ heading}, σ ∈ tree.nodes → σ.heading? = some heading →
    IsWord heading.name ∧ ∀ ns, heading.ns = some ns → IsPath ns
  references : ∀ {fullName}, .reference fullName ∈ tree.nodes → IsPath fullName
  namedStrings : ∀ {fullName}, .namedString fullName ∈ tree.nodes → IsPath fullName
  fields : ∀ {heading doc fields}, .record heading doc fields ∈ tree.nodes →
    (∀ f ∈ fields, IsWord f.name) ∧ (fields.map SchemaField.name).Nodup
  /-- The symbols of an enumeration are those of a type, in the order of the type; the first is the default. -/
  symbols : ∀ {heading doc symbols default}, .enum heading doc symbols default ∈ tree.nodes →
    (∀ s ∈ symbols, IsWord s) ∧ symbols ≠ [] ∧ symbols.Nodup ∧ symbols.head? = some default ∧
      ∃ id d declared, cx.graph.Reachable root id ∧ cx.graph.get? id = some d ∧ d.shape = .enum declared ∧
        heading = cx.headingOf d ∧ FirstOccurrences declared symbols
  /-- No member of a union is a union, and no two members define or refer to one named type. -/
  unions : ∀ {members}, .union members ∈ tree.nodes →
    (∀ σ ∈ members, ∀ inner, σ ≠ .union inner) ∧ (members.filterMap Schema.denotedName?).Nodup
  decimals : ∀ {base attributes}, .logical base "decimal" attributes ∈ tree.nodes → DecimalAttributes attributes

variable {cx : Setting} {r x : Node} {d : Descriptor} {M : Shows} {Ref : TypeId → String → Prop} {id : TypeId}
  {default : Option Value} {σ : Schema}

/-! ## Leaves -/

/-- The attributes of a decimal type fit. -/
theorem decimalAttributes_of_ofParams {params : List Int} {t : Decimal} (h : Decimal.ofParams params = .ok t) :
    DecimalAttributes (Rule.decimalAttributes t) := by
  unfold Decimal.ofParams at h
  split at h
  · next p =>
    split at h <;> cases h
    simp only [Rule.decimalAttributes]
    exact .unscaled (by omega)
  · next p s =>
    split at h
    · cases h
    · split at h
      · cases h
      · split at h <;> cases h
        simp only [Rule.decimalAttributes]
        exact .scaled (by omega) (by omega) (by omega)
  · cases h

theorem logicalType_ne_decimal {o : Options} {kind : Refined} {base : Primitive} :
    Rule.logicalType? o kind ≠ some (base, "decimal") := by
  cases kind with
  | moment | time =>
    simp only [Rule.logicalType?]
    split <;> simp
  | _ => simp [Rule.logicalType?]

theorem Leaf.decimal_attributes {base : Primitive} {attributes : List (String × Json)}
    (h : Leaf cx d (.logical base "decimal" attributes)) : DecimalAttributes attributes := by
  generalize hσ : Schema.logical base "decimal" attributes = σ at h
  cases h with
  | decimal _ ht =>
    cases hσ
    exact decimalAttributes_of_ofParams ht
  | refined _ hl =>
    cases hσ
    exact absurd hl logicalType_ne_decimal
  | json => simp [Schema.refined] at hσ
  | basic | namedString | forward => cases hσ

theorem Leaf.path_of_namedString {fullName : String} (h : Leaf cx d (.namedString fullName)) : IsPath fullName := by
  generalize hσ : Schema.namedString fullName = σ at h
  cases h with
  | namedString _ hv =>
    cases hσ
    exact hv.isPath_fullName
  | _ => cases hσ

/-! ## Nodes -/

/-- A definition has the heading of its type, which is valid. -/
theorem Translates.heading (h : Translates cx M Ref id default σ) {heading : Heading}
    (hσ : σ.heading? = some heading) : ∃ d, cx.ValidHeading d ∧ heading = cx.headingOf d := by
  cases h with
  | leaf _ hl => cases hl <;> cases hσ
  | reference | union | sequence | map => cases hσ
  | enum _ hv | duration _ hv | record _ hv =>
    cases hσ
    exact ⟨_, hv, rfl⟩

theorem Translates.record_fields {heading : Heading} {doc : Option String} {fields : List (SchemaField Schema)}
    (h : Translates cx M Ref id default (.record heading doc fields)) :
    (∀ f ∈ fields, IsWord f.name) ∧ (fields.map SchemaField.name).Nodup := by
  cases h with
  | leaf _ hl => cases hl
  | record _ _ _ hfs hnodup =>
    refine ⟨fun s hs => ?_, hnodup⟩
    obtain ⟨f, -, hf⟩ := exists_of_forall₂_right hfs hs
    exact hf.name ▸ isWord_of_check hf.valid

theorem Translates.enum_symbols {heading : Heading} {doc : Option String} {symbols : List String} {first : String}
    (h : Translates cx M Ref id default (.enum heading doc symbols first)) :
    (∀ s ∈ symbols, IsWord s) ∧ symbols.head? = some first ∧ ∃ d declared, cx.graph.get? id = some d ∧
      d.shape = .enum declared ∧ heading = cx.headingOf d ∧ FirstOccurrences declared symbols := by
  cases h with
  | leaf _ hl => cases hl
  | @enum d declared x xs hget _ hd hs =>
    have hfirst := firstOccurrences_of_distinctSymbols hs
    refine ⟨fun s hmem => ?_, rfl, d, declared, hget, hd, rfl, hfirst⟩
    exact isWord_of_check ((distinctSymbols_ok []).mp ⟨_, hs⟩ s (hfirst.mem.mp hmem))

/-- Only unions are shown as unions. -/
theorem Translates.shape_of_union {σs : List Schema} (h : Translates cx M Ref id default (.union σs)) :
    ∃ d members, cx.graph.get? id = some d ∧ d.shape = .union members := by
  cases h with
  | leaf _ hl => cases hl
  | union hget hd => exact ⟨_, _, hget, hd⟩

/-! ## Members of unions -/

/-- The part of a union that shows the type of a member is no union. -/
theorem not_union_of_kid (hr : Derived cx r) (hx : x ∈ cx.labelled r) {σs : List Schema} (hσ : x.schema = .union σs)
    {k : Node} (hk : k ∈ cx.kids x) (inner : List Schema) : k.schema ≠ .union inner := by
  intro hinner
  obtain ⟨d, members, hget, hd, hflat, ho⟩ := orderFor_kids hr hx hσ
  have hmem : k.type ∈ cx.graph.membersOf x.type := ho.mem.mp (List.mem_map_of_mem hk)
  obtain ⟨-, m, hm, hleaf⟩ := TypeGraph.flatMembers_reached hget hd hflat hmem
  have htrans := (derived_of_mem hr (Setting.kids_subset_labelled hx hk)).translates
  rw [hinner] at htrans
  obtain ⟨d', members', hget', hd'⟩ := htrans.shape_of_union
  cases hm.symm.trans hget'
  exact hleaf members' hd'

section Denoted

variable (hr : Derived cx r) (hs : Scoped cx [] (cx.labelled r)) (hforward : cx.graph.NoForward r.type)
include hr hs hforward

/-- What a node denotes is the full name of its type, which is a named one. -/
theorem denotedName_of_mem (hx : x ∈ cx.labelled r) {fullName : String}
    (hdenoted : x.schema.denotedName? = some fullName) :
    ∃ d, cx.graph.get? x.type = some d ∧ d.isNamed = true ∧ fullName = cx.fullNameOf d := by
  cases hσ : x.schema with
  | reference name =>
    rw [hσ] at hdenoted
    cases hdenoted
    obtain ⟨d, hget, hn⟩ := named_of_reference hr hforward hx hσ
    refine ⟨d, hget, hn, ?_⟩
    rcases hs.definition_or_reference hget hn hx with hdef | href
    · rw [hσ] at hdef
      cases hdef
    · cases hσ.symm.trans href
      rfl
  | _ => exact hs.definedName hx (by rwa [hσ] at hdenoted ⊢)

/-- Parts of a union that denote one named type are one part. -/
theorem nodup_denoted_of_union (hx : x ∈ cx.labelled r) {σs : List Schema} (hσ : x.schema = .union σs) :
    (((cx.kids x).map Node.schema).filterMap Schema.denotedName?).Nodup := by
  obtain ⟨d, members, hget, hd, hflat, ho⟩ := orderFor_kids hr hx hσ
  have hkids : ((cx.kids x).map Node.type).Nodup := ho.nodup (TypeGraph.nodup_flatMembers hflat)
  rw [List.filterMap_map, List.Nodup, List.pairwise_filterMap]
  refine (List.pairwise_map.mp hkids).imp_of_mem fun {k l} hk hl hne n hn m hm hnm => hne ?_
  subst hnm
  have hkmem := Setting.kids_subset_labelled hx hk
  have hlmem := Setting.kids_subset_labelled hx hl
  obtain ⟨dk, hgetk, hnk, hnamek⟩ := denotedName_of_mem hr hs hforward hkmem hn
  obtain ⟨dl, hgetl, hnl, hnamel⟩ := denotedName_of_mem hr hs hforward hlmem hm
  exact type_eq_of_fullName hs hkmem hlmem hgetk hnk hgetl hnl (hnamek.symm.trans hnamel)

end Denoted

/-! ## The whole schema -/

/-- **Every schema that is derived is well formed.** -/
theorem derive_wellFormed {root : TypeId} {tree : Schema} (hforward : cx.graph.NoForward root)
    (h : RuleTable.standard.derive cx root = .ok tree) : WellFormed cx root tree := by
  obtain ⟨hroot, hscope⟩ := nodes_of_derive h
  have hnode {σ : Schema} (hσ : σ ∈ tree.nodes) : ∃ x ∈ cx.labels tree root none, x.schema = σ := by
    rw [← map_schema_labelled hroot] at hσ
    exact List.mem_map.mp hσ
  have hshows {x : Node} (hx : x ∈ cx.labels tree root none) :=
    translates_of_mem hroot hx
  constructor
  case headings =>
    intro σ heading hσ hheading
    obtain ⟨x, hx, rfl⟩ := hnode hσ
    obtain ⟨d, hv, rfl⟩ := (hshows hx).heading hheading
    exact ⟨isWord_of_check hv.name, fun ns => hv.isPath_ns⟩
  case references =>
    intro fullName hσ
    obtain ⟨x, hx, hxσ⟩ := hnode hσ
    obtain ⟨d, hget, hn, rfl⟩ := denotedName_of_mem hroot hscope hforward hx (by rw [hxσ]; rfl)
    exact (readName?_of_named hroot hscope hx hget hn none).1.isPath_fullName
  case namedStrings =>
    intro fullName hσ
    obtain ⟨x, hx, hxσ⟩ := hnode hσ
    have htrans := hshows hx
    rw [hxσ] at htrans
    cases htrans with
    | leaf _ hl => exact hl.path_of_namedString
  case fields =>
    intro heading doc fields hσ
    obtain ⟨x, hx, hxσ⟩ := hnode hσ
    exact (hxσ ▸ hshows hx).record_fields
  case symbols =>
    intro heading doc symbols default hσ
    obtain ⟨x, hx, hxσ⟩ := hnode hσ
    obtain ⟨hwords, hhead, d, declared, hget, hd, hheading, hfirst⟩ := (hxσ ▸ hshows hx).enum_symbols
    refine ⟨hwords, ?_, hfirst.nodup, hhead, x.type, d, declared, reachable_of_mem hroot hx, hget, hd, hheading, hfirst⟩
    rintro rfl
    cases hhead
  case unions =>
    intro members hσ
    obtain ⟨x, hx, hxσ⟩ := hnode hσ
    have hkids : (cx.kids x).map Node.schema = members := by
      rw [(hshows hx).map_schema_kids, hxσ]
      rfl
    refine ⟨fun σ hσ inner => ?_, hkids ▸ nodup_denoted_of_union hroot hscope hforward hx hxσ⟩
    rw [← hkids] at hσ
    obtain ⟨k, hk, rfl⟩ := List.mem_map.mp hσ
    exact not_union_of_kid hroot hx hxσ hk inner
  case decimals =>
    intro base attributes hσ
    obtain ⟨x, hx, hxσ⟩ := hnode hσ
    have htrans := hshows hx
    rw [hxσ] at htrans
    cases htrans with
    | leaf _ hl => exact hl.decimal_attributes

/-! ## An invoice -/

/-- An invoice with an enumeration that lists a symbol twice, a decimal, and a union within a union. -/
def invoice : Setting :=
  .of ⟨#[
    some { name := "Invoice", origin := some "shop.sales", shape := .record [
      { name := "state", type := { target := 1 }, default := some (.str "paid") },
      { name := "total", type := { target := 2 } },
      { name := "reference", type := { target := 3 } },
      { name := "credit", type := { target := 4 }, default := some .null }] },
    some { name := "State", origin := some "shop", shape := .enum ["open", "paid", "open", "void"] },
    some { name := "Decimal", shape := .decimal [9, 2] },
    some { name := "Code", shape := .namedString },
    some { name := "Union", shape := .union [{ target := 0, weak := true }, { target := 5 }, { target := 1 }] },
    some { name := "Optional", shape := .union [{ target := 1 }, { target := 6 }] },
    some { name := "None", shape := .basic .null }]⟩ { namespaceMode := .fullModule } none

/-- The schema of invoices. -/
def invoiceSchema : Schema :=
  .record ⟨"Invoice", some "shop.sales"⟩ none [
    ⟨"state", .enum ⟨"State", some "shop"⟩ none ["open", "paid", "void"] "open", none, some (.str "paid")⟩,
    ⟨"total", .logical .bytes "decimal" [("precision", .int 9), ("scale", .int 2)], none, none⟩,
    ⟨"reference", .namedString "Code", none, none⟩,
    ⟨"credit", .union [.primitive .null, .reference "shop.sales.Invoice", .reference "shop.State"], none, some .null⟩]

theorem derive_invoice : RuleTable.standard.derive invoice 0 = .ok invoiceSchema := by cbv

theorem wellFormed_invoice : invoice.graph.NoForward 0 ∧
    RuleTable.standard.derive invoice 0 = .ok invoiceSchema ∧ WellFormed invoice 0 invoiceSchema := by
  have hforward : invoice.graph.NoForward 0 := by
    intro id d name _ hget hd
    match id with
    | 0 | 1 | 2 | 3 | 4 | 5 | 6 => cases hget; cases hd
    | _ + 7 => cases hget
  exact ⟨hforward, derive_invoice, derive_wellFormed hforward derive_invoice⟩

end Avro
