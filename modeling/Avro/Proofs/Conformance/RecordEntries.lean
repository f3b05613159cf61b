import Avro.Proofs.Conformance.Branches
import Avro.Proofs.Encoding.Refused
import Avro.Proofs.Json.DocumentDefaults

/-!
# The entries that a record reads

A default of a record is a list of entries, in which a key may come more than once. A record looks each of its fields
up there, so it reads the first entry with a key and none of the others: nothing that is behind it has an effect, be it
accepted or not (`encode_firstEntries`). A map and a JSON document go through all entries, read every one of them and
show the last (`Value.ReadsLast`). So one dictionary has other values as a record than as a map
(`encode_record_entries`, `repeated_key_unread`).

A field without an entry takes its own default, and what it shows then is what its schema declares
(`derive_missing_entry`).
-/

namespace Avro

open RuleTable

/-- The value is an object that gives the key this value. -/
def Json.Gives (j : Json) (key : String) (value : Json) : Prop :=
  ∃ out : Entries, j = .obj out ∧ out.get? key = some value

/-- The entries whose key has not come before. -/
def firstEntries : List (String × Value) → List (String × Value)
  | [] => []
  | e :: es => e :: (firstEntries es).filter fun x => x.1 != e.1

/-- Every entry reads as something, and the object gives each key what the last entry with the key reads as. -/
structure Value.ReadsLast (reads : Value → Json → Prop) (es : List (String × Value)) (j : Json) : Prop where
  every : ∀ e ∈ es, ∃ je, reads e.2 je
  last : ∀ key v, lastValue? es key = some v → ∃ jv, reads v jv ∧ j.Gives key jv

/-- No field behind this one has the same name in schemas. -/
def Setting.LastNamed (cx : Setting) (fs : List Field) (f : Field) : Prop :=
  ∃ before after, fs = before ++ f :: after ∧ ∀ g ∈ after, cx.fieldName g ≠ cx.fieldName f

variable {cx : Setting} {id : TypeId} {d : Descriptor} {fs : List Field} {f : Field} {es : List (String × Value)}
  {j : Json}

/-! ## First entries -/

/-- Who looks for an entry by its key does not come to the others. -/
theorem find?_firstEntries (p : String → Bool) :
    ((firstEntries es).find? fun e => p e.1) = es.find? fun e => p e.1 := by
  induction es with
  | nil => rfl
  | cons e es ih =>
    rw [firstEntries, List.find?_cons, List.find?_cons, List.find?_filter, ← ih]
    cases hp : p e.1 with
    | true => rfl
    | false =>
      -- what passes has another key than the entry, which does not
      have hother : ∀ x : String × Value, decide ((x.1 != e.1) = true ∧ p x.1 = true) = p x.1 := by
        intro x
        by_cases hx : x.1 = e.1 <;> simp [hx, hp]
      simp only [hother]

theorem mem_firstEntries {e : String × Value} : e ∈ firstEntries es ↔ (es.find? fun x => x.1 == e.1) = some e := by
  induction es with
  | nil => simp [firstEntries]
  | cons a es ih =>
    rw [firstEntries, List.mem_cons, List.mem_filter, ih, List.find?_cons]
    by_cases hkey : a.1 = e.1
    · simp [hkey, eq_comm]
    · have hne : e ≠ a := fun h => hkey (h ▸ rfl)
      have hother : (a.1 == e.1) = false := by simpa using hkey
      simp [hother, hne, Ne.symm hkey]

theorem firstEntries_of_nodup (h : (es.map Prod.fst).Nodup) : firstEntries es = es := by
  induction es with
  | nil => rfl
  | cons e es ih =>
    rw [List.map_cons, List.nodup_cons] at h
    rw [firstEntries, ih h.2, List.filter_eq_self.mpr]
    intro x hx
    have hne : x.1 ≠ e.1 := fun heq => h.1 (heq ▸ List.mem_map_of_mem hx)
    simpa using hne

/-! ## Records -/

theorem givenValue?_of_mem {e : String × Value} (he : e ∈ firstEntries es) (hf : f.name = e.1) :
    Rule.givenValue? es f = some e.2 := by
  rw [Rule.givenValue?, hf, mem_firstEntries.mp he]

theorem givenValue?_firstEntries : Rule.givenValue? (firstEntries es) f = Rule.givenValue? es f := by
  rw [Rule.givenValue?, Rule.givenValue?, find?_firstEntries fun key => key == f.name]

theorem unknownKey?_firstEntries : Rule.unknownKey? fs (firstEntries es) = Rule.unknownKey? fs es := by
  rw [Rule.unknownKey?, Rule.unknownKey?, find?_firstEntries fun key => !fs.any fun f => f.name == key]

theorem encodeFields_firstEntries {encode : TypeId → Value → Encode Json} :
    ∀ fs, Rule.encodeFields cx encode (firstEntries es) fs = Rule.encodeFields cx encode es fs
  | [] => rfl
  | f :: fs => by simp only [Rule.encodeFields, givenValue?_firstEntries, encodeFields_firstEntries fs]

/-- **A record reads the first entry with a key, and no other.** -/
theorem encode_firstEntries (hget : cx.graph.get? id = some d) (hd : d.shape = .record fs) :
    standard.encode cx id (.dict (firstEntries es)) = standard.encode cx id (.dict es) := by
  rw [encode_eq hget (TypeGraph.ruleFor?_record hd), encode_eq hget (TypeGraph.ruleFor?_record hd)]
  simp only [Rule.record, hd, Rule.encodeRecord, unknownKey?_firstEntries, encodeFields_firstEntries]

/-- A dictionary is a default of a record if it has entries for fields only, and each field has a value that is a
default of its type. -/
theorem accepts_record_iff (hget : cx.graph.get? id = some d) (hd : d.shape = .record fs) :
    cx.Accepts id (.dict es) ↔ (∀ e ∈ es, ∃ f ∈ fs, f.name = e.1) ∧
      ∀ f ∈ fs, ∃ v, Rule.givenValue? es f = some v ∧ cx.Accepts f.type.target v := by
  simp only [Setting.Accepts, encode_record_ok hget hd, ← unknownKey?_eq_none]
  constructor
  · rintro ⟨j, es', js, hes, hknown, -, hall⟩
    cases hes
    refine ⟨hknown, fun f hf => ?_⟩
    obtain ⟨y, -, -, v, hv, hj⟩ := exists_of_forall₂_left hall hf
    exact ⟨v, hv, y.2, hj⟩
  · rintro ⟨hknown, hall⟩
    choose! given hgiven form hform using hall
    refine ⟨_, es, fs.map fun f => (cx.fieldName f, form f), rfl, hknown, rfl, ?_⟩
    rw [List.forall₂_map_right_iff, List.forall₂_same]
    exact fun f hf => ⟨rfl, given f, hgiven f hf, hform f hf⟩

theorem lastNamed_of_nodup (h : (fs.map cx.fieldName).Nodup) (hf : f ∈ fs) : cx.LastNamed fs f := by
  obtain ⟨before, after, rfl⟩ := List.append_of_mem hf
  rw [List.map_append, List.map_cons, List.nodup_append] at h
  obtain ⟨hnew, -⟩ := List.nodup_cons.mp h.2.1
  exact ⟨before, after, rfl, fun g hg heq => hnew (heq ▸ List.mem_map_of_mem hg)⟩

/-- Of the fields that have one name in schemas, the last gives the value. -/
theorem encode_record_gives (hget : cx.graph.get? id = some d) (hd : d.shape = .record fs)
    (henc : (standard.encode cx id (.dict es)).outcome = some (.ok j)) (hf : cx.LastNamed fs f) :
    ∃ v jv, Rule.givenValue? es f = some v ∧ (standard.encode cx f.type.target v).outcome = some (.ok jv) ∧
      j.Gives (cx.fieldName f) jv := by
  obtain ⟨before, after, rfl, hlast⟩ := hf
  obtain ⟨es', js, hes, -, rfl, hall⟩ := (encode_record_ok hget hd).mp henc
  cases hes
  -- the pair of the field is the first with the name from behind
  have hfirst : ((before ++ f :: after).reverse.find? fun g => cx.fieldName g == cx.fieldName f) = some f := by
    have hafter : (after.reverse.find? fun g => cx.fieldName g == cx.fieldName f) = none :=
      List.find?_eq_none.mpr fun g hg => by simpa using hlast g (List.mem_reverse.mp hg)
    simp [hafter]
  obtain ⟨y, hy, -, v, hv, hj⟩ := find?_of_forall₂ (g := Prod.fst) (List.forall₂_reverse_iff.mpr hall)
    (fun h => h.1) hfirst
  refine ⟨v, y.2, hv, hj, _, rfl, ?_⟩
  rw [Json.get?_ofEntries rfl, Json.Entries.get?, hy]
  rfl

/-- The first entry with the name of a field is a default of the field's type, and is what the field shows. -/
theorem encode_record_first {e : String × Value} (hget : cx.graph.get? id = some d) (hd : d.shape = .record fs)
    (henc : (standard.encode cx id (.dict es)).outcome = some (.ok j)) (he : e ∈ firstEntries es) (hf : f ∈ fs)
    (hname : f.name = e.1) : ∃ je, (standard.encode cx f.type.target e.2).outcome = some (.ok je) ∧
      (cx.LastNamed fs f → j.Gives (cx.fieldName f) je) := by
  have hgiven := givenValue?_of_mem he hname
  obtain ⟨-, hall⟩ := (accepts_record_iff hget hd).mp ⟨j, henc⟩
  obtain ⟨v, hv, je, hje⟩ := hall f hf
  cases hgiven.symm.trans hv
  refine ⟨je, hje, fun hlast => ?_⟩
  obtain ⟨w, jw, hw, hjw, hgives⟩ := encode_record_gives hget hd henc hlast
  cases hgiven.symm.trans hw
  cases hje.symm.trans hjw
  exact hgives

/-! ## Maps and documents -/

/-- Where every entry is read, the last one with a key is shown. -/
theorem Value.readsLast_ofEntries {reads : Value → Json → Prop} {js : Json.Entries}
    (h : List.Forall₂ (fun x y => y.1 = x.1 ∧ reads x.2 y.2) es js) : ReadsLast reads es (Json.ofEntries js) := by
  refine ⟨fun e he => ?_, fun key v hv => ?_⟩
  · obtain ⟨y, -, -, hy⟩ := exists_of_forall₂_left h he
    exact ⟨y.2, hy⟩
  · obtain ⟨jv, hjv, hread⟩ := exists_get?_of_lastValue? h rfl hv
    exact ⟨jv, hread, _, rfl, hjv⟩

theorem Value.readsLast_of_map {key value : Edge} (hget : cx.graph.get? id = some d) (hd : d.shape = .map key value)
    (hjson : cx.graph.isJson d = false) (henc : (standard.encode cx id (.dict es)).outcome = some (.ok j)) :
    ReadsLast (fun v j => (standard.encode cx value.target v).outcome = some (.ok j)) es j := by
  obtain ⟨_, js, hes, rfl, hall⟩ := (encode_map_ok hget hd hjson).mp henc
  cases hes
  exact readsLast_ofEntries hall

theorem Value.readsLast_of_toJson? (h : (Value.dict es).toJson? = some j) :
    ReadsLast (fun v j => v.toJson? = some j) es j := by
  obtain ⟨js, hall, rfl⟩ := toJson?_dict.mp h
  exact readsLast_ofEntries hall

/--
**Which entries of a dictionary are read.** As a default of a record it has entries for fields only. Of those with one
key, the first is a default of the field's type and gives the value that is shown; the others have no effect at all.
So all entries are defaults if no key comes twice. As a default of a map, or as a document, each entry is read and the
last with a key is shown.
-/
theorem encode_record_entries (hget : cx.graph.get? id = some d) (hd : d.shape = .record fs)
    (es : List (String × Value)) :
    (cx.Accepts id (.dict es) ↔ (∀ e ∈ es, ∃ f ∈ fs, f.name = e.1) ∧
      ∀ f ∈ fs, ∃ v, Rule.givenValue? es f = some v ∧ cx.Accepts f.type.target v) ∧
    (∀ j, (standard.encode cx id (.dict es)).outcome = some (.ok j) → ∀ e ∈ firstEntries es, ∀ f ∈ fs, f.name = e.1 →
      ∃ je, (standard.encode cx f.type.target e.2).outcome = some (.ok je) ∧
        (cx.LastNamed fs f → j.Gives (cx.fieldName f) je)) ∧
    (∀ es', firstEntries es' = firstEntries es →
      standard.encode cx id (.dict es') = standard.encode cx id (.dict es)) ∧
    ((es.map Prod.fst).Nodup → cx.Accepts id (.dict es) →
      ∀ e ∈ es, ∀ f ∈ fs, f.name = e.1 → cx.Accepts f.type.target e.2) ∧
    (∀ m dm key value j, cx.graph.get? m = some dm → dm.shape = .map key value → cx.graph.isJson dm = false →
      (standard.encode cx m (.dict es)).outcome = some (.ok j) →
      Value.ReadsLast (fun v j => (standard.encode cx value.target v).outcome = some (.ok j)) es j) ∧
    (∀ j, (Value.dict es).toJson? = some j → Value.ReadsLast (fun v j => v.toJson? = some j) es j) := by
  refine ⟨accepts_record_iff hget hd, fun j henc e he f hf hname => encode_record_first hget hd henc he hf hname,
    fun es' hsame => ?_, fun hnodup ⟨j, henc⟩ e he f hf hname => ?_,
    fun m dm key value j hm hdm hjson henc => Value.readsLast_of_map hm hdm hjson henc,
    fun j hj => Value.readsLast_of_toJson? hj⟩
  · rw [← encode_firstEntries hget hd, hsame, encode_firstEntries hget hd]
  · rw [← firstEntries_of_nodup hnodup] at he
    obtain ⟨je, hje, -⟩ := encode_record_first hget hd henc he hf hname
    exact ⟨je, hje⟩

/-! ## A repeated key -/

/-- A point on a line. -/
def pointRecord : Descriptor := { name := "Point", shape := .record [{ name := "x", type := { target := 1 } }] }

/-- The type of points, and that of integers by name. -/
def points : Setting :=
  .of ⟨#[
    some pointRecord,
    some { name := "int", shape := .basic .integer },
    some { name := "Dict", shape := .map { target := 3 } { target := 1 } },
    some { name := "str", shape := .basic .string }]⟩ {} none

theorem entries_onePoint : points.graph.get? 0 = some pointRecord ∧
    pointRecord.shape = .record [{ name := "x", type := { target := 1 } }] ∧
    (standard.encode points 0 (.dict [("x", .int 1), ("x", .int 2)])).outcome = some (.ok (.obj [("x", .int 1)])) ∧
    (Json.obj [("x", .int 1)]).Gives "x" (.int 1) ∧
    standard.encode points 0 (.dict [("x", .int 1), ("x", .int 2)]) =
      standard.encode points 0 (.dict [("x", .int 1)]) := by
  have hencode : (standard.encode points 0 (.dict [("x", .int 1), ("x", .int 2)])).outcome =
      some (.ok (.obj [("x", .int 1)])) := by cbv
  have hone : (standard.encode points 1 (.int 1)).outcome = some (.ok (.int 1)) := by cbv
  have hget : points.graph.get? 0 = some pointRecord := rfl
  obtain ⟨-, hshown, hbehind, -⟩ := encode_record_entries hget rfl [("x", .int 1)]
  have hsame := hbehind [("x", .int 1), ("x", .int 2)] (by simp [firstEntries])
  obtain ⟨je, hje, hgives⟩ := hshown _ (hsame ▸ hencode) ("x", .int 1) List.mem_cons_self _ List.mem_cons_self rfl
  cases hone.symm.trans hje
  exact ⟨hget, rfl, hencode, hgives ⟨[], [], rfl, by simp⟩, hsame⟩

/-- Behind the first entry with a key there may be a value of any kind. A map refuses it, or else shows it. -/
theorem repeated_key_unread :
    (standard.encode points 0 (.dict [("x", .int 1), ("x", .str "two")])).outcome = some (.ok (.obj [("x", .int 1)])) ∧
    ¬ points.Accepts 1 (.str "two") ∧ ¬ points.Accepts 2 (.dict [("x", .int 1), ("x", .str "two")]) ∧
    (standard.encode points 0 (.dict [("x", .int 1), ("x", .int 2)])).outcome = some (.ok (.obj [("x", .int 1)])) ∧
    (standard.encode points 2 (.dict [("x", .int 1), ("x", .int 2)])).outcome = some (.ok (.obj [("x", .int 2)])) ∧
    (Value.dict [("x", .int 1), ("x", .int 2)]).toJson? = some (.obj [("x", .int 2)]) := by
  have hvalue : points.Refuses 1 (.str "two") := ⟨_, by cbv⟩
  have hmap : points.Refuses 2 (.dict [("x", .int 1), ("x", .str "two")]) := ⟨_, by cbv⟩
  exact ⟨by cbv, hvalue.not_accepts, hmap.not_accepts, by cbv, by cbv, by cbv⟩

/-! ## Entries that are missing -/

variable {x : Node}

/--
**What a record shows for a missing entry is the default that its schema declares for the field.** The field may have
any type: the schema of a union has been put into the order for the default, and the record goes through the members in
the order that is declared, but both take the same member.
-/
theorem derive_missing_entry {root : TypeId} {tree : Schema} {heading : Heading} {doc : Option String}
    {ss : List (SchemaField Schema)} {i : Nat} {w : Value} (h : standard.derive cx root = .ok tree)
    (hx : x ∈ cx.labelled ⟨root, none, tree⟩) (hσ : x.schema = .record heading doc ss)
    (hf : (cx.graph.fieldsOf x.type)[i]? = some f) (hw : f.default = some w) (hmissing : ∀ e ∈ es, e.1 ≠ f.name)
    (henc : (standard.encode cx x.type (.dict es)).outcome = some (.ok j)) :
    (cx.labelled ⟨root, none, tree⟩).map Node.schema = tree.nodes ∧
    ∃ s jd, ss[i]? = some s ∧ s.name = cx.fieldName f ∧ s.default = some jd ∧ j.Gives (cx.fieldName f) jd := by
  obtain ⟨hroot, -⟩ := nodes_of_derive h
  refine ⟨map_schema_labelled hroot, ?_⟩
  have htrans := translates_of_mem hroot hx
  rw [hσ] at htrans
  cases htrans with
  | leaf _ hl => cases hl
  | @record d fs _ hget _ hd hfs hnodup =>
    rw [TypeGraph.fieldsOf_eq hget hd] at hf
    obtain ⟨hi, -⟩ := List.getElem?_eq_some_iff.mp hf
    have hlength : i < ss.length := hfs.length_eq ▸ hi
    have hs : ss[i]? = some ss[i] := List.getElem?_eq_getElem hlength
    have hfield := rel_of_getElem? hfs hf hs
    obtain ⟨jd, hdefault, hjd⟩ := hfield.default w hw
    have hlast : cx.LastNamed fs f :=
      lastNamed_of_nodup (map_name_of_translates hfs ▸ hnodup) (List.mem_of_getElem? hf)
    obtain ⟨v, jv, hv, hjv, hgives⟩ := encode_record_gives hget hd henc hlast
    rw [givenValue?_of_missing hmissing, hw] at hv
    cases hv
    cases hjd.symm.trans hjv
    exact ⟨ss[i], jd, hs, hfield.name, hdefault, hgives⟩

/-- A tag with a text and a colour, which is a number, or a name if it has one. -/
def tags : Setting :=
  .of ⟨#[
    some { name := "Tag", shape := .record [
      { name := "text", type := { target := 3 } },
      { name := "color", type := { target := 1 }, default := some .null, otherName := some "colour" }] },
    some { name := "Color", shape := .union [{ target := 2 }, { target := 4 }] },
    some { name := "int", shape := .basic .integer },
    some { name := "str", shape := .basic .string },
    some { name := "Optional", shape := .union [{ target := 3 }, { target := 5 }] },
    some { name := "None", shape := .basic .null }]⟩ { useFieldAlias := true } none

/-- The fields of the schema of tags: the union of the colour begins with the member of the default. -/
def tagFields : List (SchemaField Schema) := [
  ⟨"text", .primitive .string, none, none⟩,
  ⟨"colour", .union [.primitive .null, .primitive .long, .primitive .string], none, some .null⟩]

theorem missing_color :
    standard.derive tags 0 = .ok (.record ⟨"Tag", none⟩ none tagFields) ∧
    (standard.encode tags 0 (.dict [("text", .str "new")])).outcome =
      some (.ok (.obj [("text", .str "new"), ("colour", .null)])) ∧
    ∃ s jd, tagFields[1]? = some s ∧ s.name = "colour" ∧ s.default = some jd ∧
      (Json.obj [("text", .str "new"), ("colour", .null)]).Gives "colour" jd := by
  have hderive : standard.derive tags 0 = .ok (.record ⟨"Tag", none⟩ none tagFields) := by cbv
  have hencode : (standard.encode tags 0 (.dict [("text", .str "new")])).outcome =
      some (.ok (.obj [("text", .str "new"), ("colour", .null)])) := by cbv
  have hfield : (tags.graph.fieldsOf 0)[1]? =
      some { name := "color", type := { target := 1 }, default := some .null, otherName := some "colour" } := rfl
  obtain ⟨-, hshown⟩ := derive_missing_entry hderive (Setting.mem_labelled_self _) rfl hfield rfl (by simp) hencode
  exact ⟨hderive, hencode, hshown⟩

end Avro
