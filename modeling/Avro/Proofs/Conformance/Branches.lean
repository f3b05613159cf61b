import Avro.Proofs.Encoding.Parts
import Avro.Proofs.Tree.Coverage
import Mathlib

/-!
# The branches that defaults take

`Setting.DefaultAt` walks through the defaults of a schema together with the schema: to the items of a list, the values
of a map, the entries of a record and the branches of unions, through references to definitions. What stands at each
place is the encoding of the value that is declared there (`DefaultAt.encodes`).

Where the schema is a union, the value takes the first branch that accepts it, in the order in which the members are
declared (`derive_branches`). If the value is the default of the field that has the union for its type, that branch is
the first of the schema. Anywhere else it need not be: the union shows its members in the order that is declared, or in
the one for the default of its field (`nested_takes_second`).
-/

namespace Avro

open RuleTable

/-- The value of a key is that of the last entry with it. -/
def lastValue? (es : List (String × Value)) (key : String) : Option Value :=
  (es.reverse.find? fun e => e.1 == key).map Prod.snd

/-- The branch at a union that a value takes: the node of the member that the value belongs to. -/
def Setting.TakesBranch (cx : Setting) (x : Node) (v : Value) (k : Node) : Prop :=
  k ∈ cx.kids x ∧ ∃ c, (Encode.choose cx.graph (standard.encode cx) (cx.graph.membersOf x.type) v).outcome =
    some (.ok c) ∧ c.member = k.type

/--
In a default of a field of the schema at `root`: the place where the value is declared, the node that is the schema
there, and the JSON value that stands there.
-/
inductive Setting.DefaultAt (cx : Setting) (root : Node) : Node → Value → Json → Prop
  | field {x : Node} {heading : Heading} {doc : Option String} {ss : List (SchemaField Schema)} {i : Nat} {f : Field}
      {s : SchemaField Schema} {v : Value} {j : Json} :
      x ∈ cx.labelled root → x.schema = .record heading doc ss → (cx.graph.fieldsOf x.type)[i]? = some f →
      ss[i]? = some s → f.default = some v → s.default = some j → DefaultAt cx root ⟨f.type.target, f.default, s.type⟩ v j
  | item {id part : TypeId} {default : Option Value} {σ : Schema} {items : List Value} {js : List Json} {i : Nat}
      {v : Value} {j : Json} :
      DefaultAt cx root ⟨id, default, .array σ⟩ (.list items) (.arr js) → cx.graph.partOf? id = some part →
      items[i]? = some v → js[i]? = some j → DefaultAt cx root ⟨part, none, σ⟩ v j
  | value {id part : TypeId} {default : Option Value} {σ : Schema} {es : List (String × Value)} {out : Json.Entries}
      {key : String} {v : Value} {j : Json} :
      DefaultAt cx root ⟨id, default, .map σ⟩ (.dict es) (.obj out) → cx.graph.partOf? id = some part →
      lastValue? es key = some v → out.get? key = some j → DefaultAt cx root ⟨part, none, σ⟩ v j
  /-- The value of a field is an entry, or the default of the field if there is none. -/
  | entry {id : TypeId} {default : Option Value} {heading : Heading} {doc : Option String}
      {ss : List (SchemaField Schema)} {es : List (String × Value)} {out : Json.Entries} {i : Nat} {f : Field}
      {s : SchemaField Schema} {v : Value} {j : Json} :
      DefaultAt cx root ⟨id, default, .record heading doc ss⟩ (.dict es) (.obj out) →
      (cx.graph.fieldsOf id)[i]? = some f → ss[i]? = some s → Rule.givenValue? es f = some v →
      out[i]? = some (s.name, j) → DefaultAt cx root ⟨f.type.target, f.default, s.type⟩ v j
  | named {id : TypeId} {default default' : Option Value} {fullName : String} {σ : Schema} {v : Value} {j : Json} :
      DefaultAt cx root ⟨id, default, .reference fullName⟩ v j → ⟨id, default', σ⟩ ∈ cx.labelled root →
      σ.definedName? = some fullName → DefaultAt cx root ⟨id, default', σ⟩ v j
  | branch {x k : Node} {σs : List Schema} {v : Value} {j : Json} :
      DefaultAt cx root x v j → x.schema = .union σs → cx.TakesBranch x v k → DefaultAt cx root k v j

/-- Wherever a default meets a union, it takes the first branch of it. -/
def Setting.DefaultsTakeFirst (cx : Setting) (root : Node) : Prop :=
  ∀ {x v j σs k}, cx.DefaultAt root x v j → x.schema = .union σs → cx.TakesBranch x v k → (cx.kids x).head? = some k

variable {cx : Setting} {r x : Node} {v : Value} {j : Json}

/-! ## Unions -/

/-- The nodes below a union are those of its members, in the order for the default. -/
theorem orderFor_kids (hr : Derived cx r) (hx : x ∈ cx.labelled r) {σs : List Schema} (hσ : x.schema = .union σs) :
    ∃ d members, cx.graph.get? x.type = some d ∧ d.shape = .union members ∧
      cx.graph.flatMembers members = .ok (cx.graph.membersOf x.type) ∧
      cx.OrderFor x.default (cx.graph.membersOf x.type) ((cx.kids x).map Node.type) := by
  obtain ⟨id, default, σ⟩ := x
  cases hσ
  have htrans : Translates cx _ _ id default (.union σs) := translates_of_mem hr hx
  cases htrans with
  | leaf _ hl => cases hl
  | @union d members flat order _ hget hd hflat ho hσs =>
    have hmembers : cx.graph.membersOf id = flat := by
      simp [TypeGraph.membersOf, hget, hd, hflat, Except.toOption]
    have hkids : (cx.kids ⟨id, default, .union σs⟩).map Node.type = order := by
      simp only [Setting.kids, Setting.orderOf_eq hget hd hflat ho]
      exact (map_zipWith_of_forall₂_left (k := fun m => m) hσs fun _ _ => rfl).trans (List.map_id' _)
    refine ⟨d, members, hget, hd, ?_, ?_⟩
    · rw [hmembers]
      exact hflat
    · rw [hmembers, hkids]
      exact ho

theorem Setting.OrderFor.nodup {default : Option Value} {flat order : List TypeId} (h : cx.OrderFor default flat order)
    (hflat : flat.Nodup) : order.Nodup := by
  cases default with
  | none => exact (show order = flat from h) ▸ hflat
  | some v =>
    obtain ⟨before, m, after, rfl, rfl, -⟩ := h
    exact List.perm_middle.nodup_iff.mp hflat

/-- Two branches of a union that have one type are one branch. -/
theorem kids_inj (hr : Derived cx r) (hx : x ∈ cx.labelled r) {σs : List Schema} (hσ : x.schema = .union σs)
    {k l : Node} (hk : k ∈ cx.kids x) (hl : l ∈ cx.kids x) (htype : k.type = l.type) : k = l := by
  obtain ⟨d, members, -, -, hflat, ho⟩ := orderFor_kids hr hx hσ
  exact List.inj_on_of_nodup_map (ho.nodup (TypeGraph.nodup_flatMembers hflat)) hk hl htype

/-! ## What stands at a place -/

/-- The last entry with a key reads as the last pair with the key, which is the one that an object shows. -/
theorem exists_get?_of_lastValue? {R : Value → Json → Prop} {es : List (String × Value)} {js out : Json.Entries}
    {key : String} (h : List.Forall₂ (fun x y => y.1 = x.1 ∧ R x.2 y.2) es js) (hout : Json.ofEntries js = .obj out)
    (hv : lastValue? es key = some v) : ∃ j, out.get? key = some j ∧ R v j := by
  obtain ⟨e, he, rfl⟩ := Option.map_eq_some_iff.mp hv
  obtain ⟨y, hy, -, hread⟩ := find?_of_forall₂ (List.forall₂_reverse_iff.mpr h) (fun h => h.1) he
  refine ⟨y.2, ?_, hread⟩
  rw [Json.get?_ofEntries hout, Json.Entries.get?, hy]
  rfl

/-- What stands at a place is the encoding of the value there. -/
theorem Setting.DefaultAt.encodes (hr : Derived cx r) (h : cx.DefaultAt r x v j) :
    x ∈ cx.labelled r ∧ (standard.encode cx x.type v).outcome = some (.ok j) := by
  induction h with
  | @field x heading doc ss i f s v j hx hσ hf hs hv hj =>
    obtain ⟨id, default, σ⟩ := x
    cases hσ
    have htrans : Translates cx _ _ id default (.record heading doc ss) := translates_of_mem hr hx
    cases htrans with
    | leaf _ hl => cases hl
    | record hget _ hd hfs _ =>
      rw [TypeGraph.fieldsOf_eq hget hd] at hf
      have hfield := rel_of_getElem? hfs hf hs
      obtain ⟨j', hj', henc⟩ := hfield.default v hv
      cases hj.symm.trans hj'
      exact ⟨hfield.type, henc⟩
  | @item id part default σ items js i v j _ hpart hv hj ih =>
    obtain ⟨hx, henc⟩ := ih
    have htrans : Translates cx _ _ id default (.array σ) := translates_of_mem hr hx
    cases htrans with
    | leaf _ hl => cases hl
    | sequence hget hd hjson hσ =>
      obtain rfl : _ = part := by simpa [TypeGraph.partOf?, hget, hd] using hpart
      obtain ⟨_, _, hitems, hjs, hall⟩ := (encode_sequence_ok hget hd hjson).mp henc
      cases hitems
      cases hjs
      exact ⟨hσ, rel_of_getElem? hall hv hj⟩
  | @value id part default σ es out key v j _ hpart hv hj ih =>
    obtain ⟨hx, henc⟩ := ih
    have htrans : Translates cx _ _ id default (.map σ) := translates_of_mem hr hx
    cases htrans with
    | leaf _ hl => cases hl
    | @map _ _ value _ _ hget hd hjson _ _ hσ =>
      obtain rfl : _ = part := by simpa [TypeGraph.partOf?, hget, hd] using hpart
      obtain ⟨_, js, hes, hout, hall⟩ := (encode_map_ok hget hd hjson).mp henc
      cases hes
      have hlast := exists_get?_of_lastValue?
        (R := fun v j => (standard.encode cx value.target v).outcome = some (.ok j)) hall hout.symm hv
      obtain ⟨j', hj', hencode⟩ := hlast
      cases hj.symm.trans hj'
      exact ⟨hσ, hencode⟩
  | @entry id default heading doc ss es out i f s v j _ hf hs hv hj ih =>
    obtain ⟨hx, henc⟩ := ih
    have htrans : Translates cx _ _ id default (.record heading doc ss) := translates_of_mem hr hx
    cases htrans with
    | leaf _ hl => cases hl
    | record hget _ hd hfs hnodup =>
      rw [TypeGraph.fieldsOf_eq hget hd] at hf
      obtain ⟨_, js, hes, -, hout, hall⟩ := (encode_record_ok hget hd).mp henc
      cases hes
      have hkeys : js.map Prod.fst = ss.map SchemaField.name := by
        rw [map_name_of_translates hfs, map_eq_map_of_forall₂ hall fun hy => hy.1]
      rw [Json.ofEntries_of_nodup (hkeys ▸ hnodup)] at hout
      cases hout
      obtain ⟨-, w, hw, hwenc⟩ := rel_of_getElem? hall hf hj
      cases hv.symm.trans hw
      exact ⟨(rel_of_getElem? hfs hf hs).type, hwenc⟩
  | named _ hmem _ ih => exact ⟨hmem, ih.2⟩
  | @branch x k σs v j _ hσ hk ih =>
    obtain ⟨hx, henc⟩ := ih
    obtain ⟨hmem, c, hc, hmember⟩ := hk
    refine ⟨Setting.kids_subset_labelled hx hmem, ?_⟩
    obtain ⟨d, members, hget, hd, hflat, -⟩ := orderFor_kids hr hx hσ
    obtain ⟨c', hc', rfl⟩ := (encode_union_ok hget hd hflat).mp henc
    cases hc.symm.trans hc'
    obtain ⟨_, _, -, -, hok, -⟩ := Encode.choose_ok_iff.mp hc
    rw [← hmember]
    exact hok

/-! ## Which branch is taken -/

/-- The first branch of a union is the one that the default of its field takes. -/
theorem head_kids_iff (hr : Derived cx r) (hx : x ∈ cx.labelled r) {σs : List Schema} (hσ : x.schema = .union σs)
    {w : Value} (hw : x.default = some w) {k : Node} : (cx.kids x).head? = some k ↔ cx.TakesBranch x w k := by
  obtain ⟨d, members, -, -, -, ho⟩ := orderFor_kids hr hx hσ
  rw [hw] at ho
  obtain ⟨before, m, after, hflat, horder, ⟨j, hj⟩, hbefore⟩ := ho
  obtain ⟨k₀, ks, hkids, htype, -⟩ := List.map_eq_cons_iff.mp horder
  have hfirst : (Encode.choose cx.graph (standard.encode cx) (cx.graph.membersOf x.type) w).outcome =
      some (.ok ⟨m, j, before ++ after⟩) := Encode.choose_ok_iff.mpr ⟨before, after, hflat, rfl, hj, hbefore⟩
  constructor
  · intro hhead
    rw [hkids] at hhead
    cases hhead
    exact ⟨hkids ▸ List.mem_cons_self, _, hfirst, htype.symm⟩
  · rintro ⟨hk, c, hc, hmember⟩
    cases hfirst.symm.trans hc
    have hk₀ : k₀ ∈ cx.kids x := hkids ▸ List.mem_cons_self
    rw [kids_inj hr hx hσ hk hk₀ (hmember.symm.trans htype.symm), hkids, List.head?_cons]

/-- Where no default is declared, the branch that is taken is the first one if and only if that one accepts the value. -/
theorem eq_head_kids_iff (hr : Derived cx r) (hx : x ∈ cx.labelled r) {σs : List Schema} (hσ : x.schema = .union σs)
    (hnone : x.default = none) {k first : Node} (hk : cx.TakesBranch x v k) (hhead : (cx.kids x).head? = some first) :
    first = k ↔ cx.Accepts first.type v := by
  obtain ⟨hmem, c, hc, hmember⟩ := hk
  obtain ⟨before, after, hsplit, -, hok, hbefore⟩ := Encode.choose_ok_iff.mp hc
  constructor
  · rintro rfl
    exact ⟨c.encoded, hmember ▸ hok⟩
  · rintro ⟨j, hj⟩
    obtain ⟨d, members, -, -, -, ho⟩ := orderFor_kids hr hx hσ
    rw [hnone] at ho
    obtain ⟨ks, hkids⟩ := List.head?_eq_some_iff.mp hhead
    have hflat : first.type :: ks.map Node.type = before ++ c.member :: after := by
      rw [← hsplit, ← show (cx.kids x).map Node.type = cx.graph.membersOf x.type from ho, hkids, List.map_cons]
    apply kids_inj hr hx hσ (hkids ▸ List.mem_cons_self) hmem
    cases before with
    | nil => exact (List.cons.inj hflat).1.trans hmember
    | cons b before =>
      -- the first member would be one of those that refuse the value
      obtain ⟨m, hm⟩ := hbefore b List.mem_cons_self
      rw [← (List.cons.inj hflat).1] at hm
      cases hj.symm.trans hm

/--
**Where a default meets a union it takes one branch, the first that accepts the value in the order in which the members
are declared.** In the schema this is the first branch if the default of the union's field takes it, so it is at the
field itself. Where the union has no default of its own, it is if the first branch accepts the value.
-/
theorem derive_branches {root : TypeId} {tree : Schema} (h : standard.derive cx root = .ok tree) {σs : List Schema}
    (hat : cx.DefaultAt ⟨root, none, tree⟩ x v j) (hσ : x.schema = .union σs) :
    (cx.kids x).map Node.schema = σs ∧ (∃ k, cx.TakesBranch x v k) ∧ ∀ k, cx.TakesBranch x v k →
      (standard.encode cx k.type v).outcome = some (.ok j) ∧
      (∃ before after, cx.graph.membersOf x.type = before ++ k.type :: after ∧ ∀ b ∈ before, cx.Refuses b v) ∧
      (x.default = some v → (cx.kids x).head? = some k) ∧
      (∀ w, x.default = some w → ((cx.kids x).head? = some k ↔ cx.TakesBranch x w k)) ∧
      (x.default = none → ∀ first, (cx.kids x).head? = some first → (first = k ↔ cx.Accepts first.type v)) := by
  obtain ⟨hroot, -⟩ := nodes_of_derive h
  obtain ⟨hx, henc⟩ := hat.encodes hroot
  obtain ⟨d, members, hget, hd, hflat, ho⟩ := orderFor_kids hroot hx hσ
  refine ⟨?_, ?_, fun k hk => ⟨?_, ?_, ?_, ?_, ?_⟩⟩
  · rw [(translates_of_mem hroot hx).map_schema_kids, hσ]
    rfl
  · obtain ⟨c, hc, -⟩ := (encode_union_ok hget hd hflat).mp henc
    obtain ⟨before, after, hsplit, -⟩ := Encode.choose_ok_iff.mp hc
    have hmember : c.member ∈ (cx.kids x).map Node.type := ho.mem.mpr (by simp [hsplit])
    obtain ⟨k, hk, htype⟩ := List.mem_map.mp hmember
    exact ⟨k, hk, c, hc, htype.symm⟩
  · exact ((hat.branch hσ hk).encodes hroot).2
  · obtain ⟨-, c, hc, hmember⟩ := hk
    obtain ⟨before, after, hsplit, -, -, hbefore⟩ := Encode.choose_ok_iff.mp hc
    exact ⟨before, after, hmember ▸ hsplit, hbefore⟩
  · exact fun hv => (head_kids_iff hroot hx hσ hv).mpr hk
  · exact fun w hw => head_kids_iff hroot hx hσ hw
  · exact fun hnone first hfirst => eq_head_kids_iff hroot hx hσ hnone hk hfirst

/-! ## A union with two orders -/

/-- Rows of optional integers, with the last of them. -/
def rows : Setting :=
  .of ⟨#[
    some { name := "Row", shape := .record [
      { name := "cells", type := { target := 1 }, default := some (.list [.null]) },
      { name := "last", type := { target := 2 }, default := some .null }] },
    some { name := "List", shape := .sequence { target := 2 } },
    some { name := "Optional", shape := .union [{ target := 3 }, { target := 4 }] },
    some { name := "int", shape := .basic .integer },
    some { name := "None", shape := .basic .null }]⟩ {} none

/-- The schema of rows, where the union has the order of its members at the one field and that of a default at the other. -/
def rowsSchema : Schema :=
  .record ⟨"Row", none⟩ none [
    ⟨"cells", .array (.union [.primitive .long, .primitive .null]), none, some (.arr [.null])⟩,
    ⟨"last", .union [.primitive .null, .primitive .long], none, some .null⟩]

theorem derive_rows : standard.derive rows 0 = .ok rowsSchema := by cbv

theorem choose_rows : (Encode.choose rows.graph (standard.encode rows) (rows.graph.membersOf 2) .null).outcome =
    some (.ok ⟨4, .null, [3]⟩) := by cbv

/-- The default of the last cell. -/
theorem defaultAt_last : rows.DefaultAt ⟨0, none, rowsSchema⟩
    ⟨2, some .null, .union [.primitive .null, .primitive .long]⟩ .null .null := by
  have hroot : ⟨0, none, rowsSchema⟩ ∈ rows.labelled ⟨0, none, rowsSchema⟩ := Setting.mem_labelled_self _
  exact .field (f := ⟨"last", ⟨2, false⟩, some .null, none, none⟩)
    (s := ⟨"last", .union [.primitive .null, .primitive .long], none, some .null⟩) (i := 1) hroot rfl rfl rfl rfl rfl

/-- The item in the default of the cells. -/
theorem defaultAt_cell : rows.DefaultAt ⟨0, none, rowsSchema⟩
    ⟨2, none, .union [.primitive .long, .primitive .null]⟩ .null .null := by
  have hroot : ⟨0, none, rowsSchema⟩ ∈ rows.labelled ⟨0, none, rowsSchema⟩ := Setting.mem_labelled_self _
  have hcells : rows.DefaultAt ⟨0, none, rowsSchema⟩ ⟨1, some (.list [.null]), .array _⟩ (.list [.null]) (.arr [.null]) :=
    .field (f := ⟨"cells", ⟨1, false⟩, some (.list [.null]), none, none⟩)
      (s := ⟨"cells", .array (.union [.primitive .long, .primitive .null]), none, some (.arr [.null])⟩) (i := 0)
      hroot rfl rfl rfl rfl rfl
  exact .item (i := 0) hcells rfl rfl rfl

/-- At the last cell the default of the field takes the first branch. In the list of cells the union has no default of its
own, and its first branch does not accept the item. -/
theorem branches_last : standard.derive rows 0 = .ok rowsSchema ∧
    rows.DefaultAt ⟨0, none, rowsSchema⟩ ⟨2, some .null, .union [.primitive .null, .primitive .long]⟩ .null .null ∧
    rows.TakesBranch ⟨2, some .null, .union [.primitive .null, .primitive .long]⟩ .null ⟨4, none, .primitive .null⟩ ∧
    (rows.kids ⟨2, some .null, .union [.primitive .null, .primitive .long]⟩).head? =
      some ⟨4, none, .primitive .null⟩ ∧
    rows.DefaultAt ⟨0, none, rowsSchema⟩ ⟨2, none, .union [.primitive .long, .primitive .null]⟩ .null .null ∧
    rows.TakesBranch ⟨2, none, .union [.primitive .long, .primitive .null]⟩ .null ⟨4, none, .primitive .null⟩ ∧
    (standard.encode rows 4 .null).outcome = some (.ok .null) ∧ ¬ rows.Accepts 3 .null := by
  have hkids : rows.kids ⟨2, some .null, .union [.primitive .null, .primitive .long]⟩ =
      [⟨4, none, .primitive .null⟩, ⟨3, none, .primitive .long⟩] := by cbv
  obtain ⟨-, -, hbranch⟩ := derive_branches derive_rows defaultAt_last rfl
  have htakes : rows.TakesBranch ⟨2, some .null, .union [.primitive .null, .primitive .long]⟩ .null
      ⟨4, none, .primitive .null⟩ := ⟨by simp [hkids], _, choose_rows, rfl⟩
  obtain ⟨-, -, hfirst, -⟩ := hbranch _ htakes
  have hcell : rows.kids ⟨2, none, .union [.primitive .long, .primitive .null]⟩ =
      [⟨3, none, .primitive .long⟩, ⟨4, none, .primitive .null⟩] := by cbv
  obtain ⟨-, -, hbranch'⟩ := derive_branches derive_rows defaultAt_cell rfl
  have htakes' : rows.TakesBranch ⟨2, none, .union [.primitive .long, .primitive .null]⟩ .null
      ⟨4, none, .primitive .null⟩ := ⟨by simp [hcell], _, choose_rows, rfl⟩
  obtain ⟨henc, -, -, -, hdeclared⟩ := hbranch' _ htakes'
  have hother : ¬ rows.Accepts 3 .null := by
    intro haccepts
    cases (hdeclared rfl ⟨3, none, .primitive .long⟩ (by rw [hcell]; rfl)).mpr haccepts
  exact ⟨derive_rows, defaultAt_last, htakes, hfirst rfl, defaultAt_cell, htakes', henc, hother⟩

/-- A default inside a list may take another branch than the first. -/
theorem nested_takes_second : standard.derive rows 0 = .ok rowsSchema ∧
    ¬ rows.DefaultsTakeFirst ⟨0, none, rowsSchema⟩ := by
  refine ⟨derive_rows, fun hfirst => ?_⟩
  have hkids : rows.kids ⟨2, none, .union [.primitive .long, .primitive .null]⟩ =
      [⟨3, none, .primitive .long⟩, ⟨4, none, .primitive .null⟩] := by cbv
  have htakes : rows.TakesBranch ⟨2, none, .union [.primitive .long, .primitive .null]⟩ .null
      ⟨4, none, .primitive .null⟩ := ⟨by simp [hkids], _, choose_rows, rfl⟩
  have hhead := hfirst defaultAt_cell rfl htakes
  rw [hkids] at hhead
  cases hhead

end Avro
