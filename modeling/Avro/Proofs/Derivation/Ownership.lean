import Avro.Proofs.Derivation.ByRule
import Avro.Proofs.Derivation.Choice
import Avro.Proofs.Derivation.Fields

/-!
# Which rule has a field

In any table, the first rule that takes care of a type has it (`RuleTable.find_ok_iff`), and makes the schema of each
field of the type: `Owned` says so of fields that have no default and of those whose types are not unions, with what
happens if the rule fails or no rule takes care of the type.

The schema of a field with a default whose type is a union is not made by the rule that has the union. It is always the
union of the members, the one that the default belongs to in front, each made by its own rule (`Owned.spliced`). So a
rule that is put in front of the one for unions does not decide on such fields (`text_not_ownersDecide`); where the
unions have the rule for unions, the rules decide on all fields (`ownersDecide_of_unions`).
-/

namespace Avro

namespace RuleTable

/-- The rule is the first of the table that takes care of the type. -/
def Owns (t : RuleTable) (g : TypeGraph) (d : Descriptor) (r : Rule) : Prop :=
  ∃ before e after, t.entries = before ++ e :: after ∧ e.rule = r ∧ r.handles g d = true ∧
    ∀ b ∈ before, b.rule.handles g d = false

/-- No rule of the table takes care of the type. -/
def Unowned (t : RuleTable) (g : TypeGraph) (d : Descriptor) : Prop := ∀ e ∈ t.entries, e.rule.handles g d = false

variable {t : RuleTable} {g : TypeGraph} {d : Descriptor} {r : Rule}

theorem find_ok_iff : t.find g d = .ok r ↔ t.Owns g d r := by
  have hfind : t.find g d = .ok r ↔ t.find? g d = some r := by
    unfold find
    cases t.find? g d <;> simp
  rw [hfind, find?, Option.map_eq_some_iff]
  simp only [List.find?_eq_some_iff_append, Bool.not_eq_true']
  constructor
  · rintro ⟨e, ⟨he, before, after, hentries, hbefore⟩, rfl⟩
    exact ⟨before, e, after, hentries, rfl, he, hbefore⟩
  · rintro ⟨before, e, after, hentries, rfl, he, hbefore⟩
    exact ⟨e, ⟨he, before, after, hentries, hbefore⟩, rfl⟩

theorem find_of_unowned (h : t.Unowned g d) : t.find g d = .error (.unsupported (.noRule d.label)) := by
  have hnone : t.find? g d = none := by simpa [find?, List.find?_eq_none, Unowned] using h
  rw [find, hnone]

/-- How rules treat the parts of types, at most so many types deep. -/
def partsWithin (t : RuleTable) (cx : Setting) (n : Nat) : Parts := ⟨t.schemaWithin cx (t.encode cx) n, t.encode cx⟩

/-- The derivation of a type, at most `n` types deep, succeeds. -/
def Derives (t : RuleTable) (cx : Setting) (n : Nat) : Deriving TypeId Schema := Derive.Does (t.partsWithin cx n).schema

end RuleTable

open RuleTable

variable {t : RuleTable} {cx : Setting} {n : Nat} {s s' : Progress} {f : Field} {d : Descriptor} {r : Rule}
  {id : TypeId} {σ : Schema} {sf : SchemaField Schema}

/-! ## Types -/

/-- The schema of a type is made by the rule that has the type. -/
theorem schemaWithin_of_owns (hget : cx.graph.get? id = some d) (hr : t.Owns cx.graph d r) :
    (t.partsWithin cx (n + 1)).schema id = r.schema cx (t.partsWithin cx n) id d := by
  simp only [partsWithin, schemaWithin, hget, find_ok_iff.mpr hr, Derive.ofFault, pure_bind]

theorem schemaWithin_of_unowned (hget : cx.graph.get? id = some d) (h : t.Unowned cx.graph d) :
    (t.partsWithin cx (n + 1)).schema id = throw (.type (.unsupported (.noRule d.label))) := by
  simp only [partsWithin, schemaWithin, hget, find_of_unowned h, Derive.ofFault]
  rfl

/-! ## Fields -/

/-- The checks of a field before its type succeed, and the type is there. -/
structure Setting.FieldReady (cx : Setting) (f : Field) (d : Descriptor) : Prop where
  name : Name.check (cx.fieldName f) = .ok ()
  mandatory : cx.options.defaultsMandatory = true → f.default.isSome = true
  target : cx.graph.get? f.type.target = some d

/-- The schema of a field shows all of the field but its type. -/
structure RuleTable.ShowsField (t : RuleTable) (cx : Setting) (f : Field) (sf : SchemaField Schema) : Prop where
  name : sf.name = cx.fieldName f
  doc : sf.doc = cx.fieldDoc f.doc
  noDefault : f.default = none → sf.default = none
  default : ∀ v, f.default = some v →
    ∃ j, sf.default = some j ∧ (t.encode cx f.type.target v).outcome = some (.ok j)

/-- Which rules make the schema of a field of the type, in a table, from some progress. -/
structure Owned (t : RuleTable) (cx : Setting) (n : Nat) (s : Progress) (f : Field) (d : Descriptor) : Prop where
  /-- The rule that has the type makes the schema. -/
  made : ¬ f.Splices d → ∀ {r}, t.Owns cx.graph d r → ∀ {sf s'},
    (Derive.field cx (t.partsWithin cx (n + 1)) f).Yields s sf s' ↔
    (r.schema cx (t.partsWithin cx n) f.type.target d).Yields s sf.type s' ∧ t.ShowsField cx f sf
  /-- If the rule fails, the field fails with the same error. -/
  fails : ¬ f.Splices d → ∀ {r}, t.Owns cx.graph d r → ∀ {e s'},
    (r.schema cx (t.partsWithin cx n) f.type.target d).runFrom s = some (.error e, s') →
      (Derive.field cx (t.partsWithin cx (n + 1)) f).runFrom s = some (.error e, s')
  /-- If no rule has the type, the field fails and nothing is changed. -/
  unowned : ¬ f.Splices d → t.Unowned cx.graph d → (Derive.field cx (t.partsWithin cx (n + 1)) f).runFrom s =
    some (.error (.type (.unsupported (.noRule d.label))), s)
  /-- The members of a union in the order that is declared, if the rule for unions has the type. -/
  declared : f.default = none → ∀ {members}, d.shape = .union members → t.Owns cx.graph d .union → ∀ {sf s'},
    (Derive.field cx (t.partsWithin cx (n + 1)) f).Yields s sf s' ↔ f.type.target ∉ s.pending ∧
      ∃ flat σs u, cx.graph.flatMembers members = .ok flat ∧
        Threaded (t.Derives cx n) { s with pending := f.type.target :: s.pending } flat σs u ∧
        s' = { u with pending := s.pending } ∧ sf = ⟨cx.fieldName f, .union σs, cx.fieldDoc f.doc, none⟩
  /-- With a default, the members with the first one in front that accepts it, whatever has the type. -/
  spliced : ∀ {v}, f.default = some v → ∀ {members}, d.shape = .union members → ∀ {sf s'},
    (Derive.field cx (t.partsWithin cx (n + 1)) f).Yields s sf s' ↔
      ∃ before m after j σs, cx.graph.flatMembers members = .ok (before ++ m :: after) ∧
        (t.encode cx m v).outcome = some (.ok j) ∧ (∀ b ∈ before, ∃ e, (t.encode cx b v).outcome = some (.error e)) ∧
        Threaded (t.Derives cx (n + 1)) s (m :: (before ++ after)) σs s' ∧
        sf = ⟨cx.fieldName f, .union σs, cx.fieldDoc f.doc, some j⟩

namespace Derive

/-- Behind the checks, a field is derived by its type. -/
theorem field_of_ready {parts : Parts} (h : cx.FieldReady f d) : field cx parts f =
    (fun p => ⟨cx.fieldName f, p.1, cx.fieldDoc f.doc, p.2⟩) <$> fieldType cx parts (cx.fieldName f) f d := by
  have hmand : (cx.options.defaultsMandatory && f.default.isNone) = false := by
    cases ho : cx.options.defaultsMandatory with
    | false => rfl
    | true => simpa using h.mandatory ho
  rw [field_eq, h.name, TypeGraph.follow_ok.mpr h.target, hmand]
  simp only [ofFault, pure_bind, Bool.false_eq_true, if_false]

theorem runFrom_throw {α : Type} (e : SchemaError) : (throw e : Derive α).runFrom s = some (.error e, s) := rfl

theorem runFrom_map {α β : Type} (x : Derive α) (k : α → β) : (k <$> x).runFrom s = (x.runFrom s).map fun r =>
    (r.1.map k, r.2) := by
  rw [map_eq_pure_bind, runFrom_bind]
  cases x.runFrom s with
  | none => rfl
  | some r =>
    obtain ⟨r, u⟩ := r
    cases r <;> rfl

end Derive

/-! ## Fields by rules -/

section Fields

open Derive

variable (h : cx.FieldReady f d)
include h

theorem yields_field_of_not_splices (hs : ¬ f.Splices d) : (field cx (t.partsWithin cx n) f).Yields s sf s' ↔
    t.Derives cx n s f.type.target sf.type s' ∧ t.ShowsField cx f sf := by
  rw [field_of_ready h, fieldType_of_not_splices hs]
  simp only [yields_map, yields_bind, yields_shownDefault]
  constructor
  · rintro ⟨p, ⟨σ, u, hσ, j?, ⟨rfl, hnone, hsome⟩, rfl⟩, rfl⟩
    exact ⟨hσ, rfl, rfl, hnone, hsome⟩
  · rintro ⟨hσ, hname, hdoc, hnone, hsome⟩
    obtain ⟨name, σ, doc, j?⟩ := sf
    cases hname
    cases hdoc
    exact ⟨(σ, j?), ⟨σ, s', hσ, j?, ⟨rfl, hnone, hsome⟩, rfl⟩, rfl⟩

/-- Where the schema of the type fails, the field fails with the same error. -/
theorem field_fails (hs : ¬ f.Splices d) {e : SchemaError}
    (he : ((t.partsWithin cx n).schema f.type.target).runFrom s = some (.error e, s')) :
    (field cx (t.partsWithin cx n) f).runFrom s = some (.error e, s') := by
  rw [field_of_ready h, fieldType_of_not_splices hs, runFrom_map, runFrom_bind, he]
  rfl

/-- The members of the type of a field with a default are derived one after the other, the chosen one first. -/
theorem yields_field_of_splices {v : Value} {members : List Edge} (hv : f.default = some v)
    (hd : d.shape = .union members) : (field cx (t.partsWithin cx n) f).Yields s sf s' ↔
      ∃ before m after j σs, cx.graph.flatMembers members = .ok (before ++ m :: after) ∧
        (t.encode cx m v).outcome = some (.ok j) ∧ (∀ b ∈ before, ∃ e, (t.encode cx b v).outcome = some (.error e)) ∧
        Threaded (t.Derives cx n) s (m :: (before ++ after)) σs s' ∧
        sf = ⟨cx.fieldName f, .union σs, cx.fieldDoc f.doc, some j⟩ := by
  rw [field_of_ready h]
  rw [fieldType_of_union hv hd]
  simp only [yields_map, yields_bind, yields_ofFault, yields_ofEncode, yields_unionOf]
  constructor
  · rintro ⟨p, ⟨flat, _, ⟨hflat, rfl⟩, c, _, ⟨hc, rfl⟩, σ, ⟨σs, hσs, rfl⟩, rfl⟩, rfl⟩
    obtain ⟨before, after, rfl, hothers, hj, hbefore⟩ := Encode.choose_ok_iff.mp hc
    rw [Choice.order, hothers] at hσs
    exact ⟨before, c.member, after, c.encoded, σs, hflat, hj, hbefore, hσs, rfl⟩
  · rintro ⟨before, m, after, j, σs, hflat, hj, hbefore, hσs, rfl⟩
    have hc := Encode.choose_ok_iff (g := cx.graph) (c := ⟨m, j, before ++ after⟩).mpr
      ⟨before, after, rfl, rfl, hj, hbefore⟩
    exact ⟨(.union σs, some j), ⟨_, s, ⟨hflat, rfl⟩, _, s, ⟨hc, rfl⟩, _, ⟨σs, hσs, rfl⟩, rfl⟩, rfl⟩

/-- **The rule that has the type of a field makes its schema, unless the field has a default and its type is a union.** -/
theorem field_owned (t : RuleTable) (n : Nat) (s : Progress) : Owned t cx n s f d where
  made hs r hr sf s' := by
    rw [yields_field_of_not_splices h hs, Derives, Does, schemaWithin_of_owns h.target hr]
  fails hs r hr e s' he := field_fails h hs (by rwa [schemaWithin_of_owns h.target hr])
  unowned hs hno := field_fails h hs (by rw [schemaWithin_of_unowned h.target hno, runFrom_throw])
  declared hv members hd hr sf s' := by
    have hs : ¬ f.Splices d := by simp [Field.Splices, hv]
    rw [yields_field_of_not_splices h hs, Derives, Does, schemaWithin_of_owns h.target hr]
    simp only [Rule.union, Rule.unionSchema, hd, yields_unnamed, union, yields_bind, yields_ofFault, yields_unionOf]
    constructor
    · rintro ⟨⟨hnew, u, ⟨flat, _, ⟨hflat, rfl⟩, σs, hσs, hσ⟩, rfl⟩, hname, hdoc, hdefault, -⟩
      obtain ⟨name, σ, doc, j?⟩ := sf
      cases hname
      cases hdoc
      cases hσ
      cases hdefault hv
      exact ⟨hnew, flat, σs, u, hflat, hσs, rfl, rfl⟩
    · rintro ⟨hnew, flat, σs, u, hflat, hσs, rfl, rfl⟩
      exact ⟨⟨hnew, u, ⟨flat, _, ⟨hflat, rfl⟩, σs, hσs, rfl⟩, rfl⟩, rfl, rfl, fun _ => rfl, by simp [hv]⟩
  spliced hv members hd sf s' := yields_field_of_splices h hv hd

end Fields

/-! ## When rules decide on all fields -/

/-- Each rule but the one for unions makes the schemas of all fields whose types it has. -/
def RuleTable.OwnersDecide (t : RuleTable) (cx : Setting) : Prop :=
  ∀ {n f d r s sf s'}, cx.graph.get? f.type.target = some d → t.Owns cx.graph d r → r ≠ .union →
    (Derive.field cx (t.partsWithin cx (n + 1)) f).Yields s sf s' →
      ∃ u, (r.schema cx (t.partsWithin cx n) f.type.target d).Yields s sf.type u

/-- What a field yields, it yields behind its checks. -/
theorem ready_of_yields {parts : Parts} (h : (Derive.field cx parts f).Yields s sf s')
    (hget : cx.graph.get? f.type.target = some d) : cx.FieldReady f d := by
  simp only [Derive.field, Derive.yields_bind, Derive.yields_ofFault] at h
  obtain ⟨_, _, ⟨hname, rfl⟩, h⟩ := h
  split at h
  · simp at h
  · next hmand => exact ⟨hname, fun ho => by simpa [ho, Option.isSome_iff_ne_none] using hmand, hget⟩

/-- If the types of a graph that are unions have the rule for unions, the rules decide on all fields. -/
theorem ownersDecide_of_unions (h : ∀ {id d members r}, cx.graph.get? id = some d → d.shape = .union members →
    t.Owns cx.graph d r → r = .union) : t.OwnersDecide cx := by
  intro n f d r s sf s' hget hr hne hyields
  have hs : ¬ f.Splices d := fun ⟨_, members, hd⟩ => hne (h hget hd hr)
  exact ⟨s', (((field_owned (ready_of_yields hyields hget) t n s).made hs hr).mp hyields).1⟩

/-! ## A rule in front of the one for unions -/

/-- Unions as bytes, with texts for defaults. -/
def textRule : Rule where
  name := "text"
  handles _ d :=
    match d.shape with
    | .union _ => true
    | _ => false
  schema _ _ _ _ := pure (.primitive .bytes)
  encode _ _ _ v := .ofExcept (Rule.encodeString v)

/-- The rules of the library, with another one in front of the one for unions. -/
def textTable : RuleTable := standard.insert 850 textRule

/-- A text or nothing. -/
def someText : Descriptor := { name := "Union", shape := .union [{ target := 2 }, { target := 3 }] }

/-- A field of that type with a default. -/
def body : Field := { name := "body", type := { target := 1 }, default := some (.str "x") }

/-- A record with two fields of that type, of which the second one has a default. -/
def notes : Setting :=
  .of ⟨#[
    some { name := "Note", shape := .record [{ name := "head", type := { target := 1 } }, body] },
    some someText,
    some { name := "str", shape := .basic .string },
    some { name := "None", shape := .basic .null }]⟩ {} none

/-- The schema of notes. -/
def notesSchema : Schema :=
  .record ⟨"Note", none⟩ none [
    ⟨"head", .primitive .bytes, none, none⟩,
    ⟨"body", .union [.primitive .string, .primitive .null], none, some (.str "x")⟩]

theorem owned_body : notes.FieldReady body someText ∧ Owned textTable notes 1 {} body someText := by
  have hready : notes.FieldReady body someText := ⟨rfl, by decide, rfl⟩
  exact ⟨hready, field_owned hready textTable 1 {}⟩

/-- A rule in front of the one for unions does not decide on a field with a default. -/
theorem text_not_ownersDecide : textTable.derive notes 0 = .ok notesSchema ∧
    textTable.Owns notes.graph someText textRule ∧ ¬ textTable.OwnersDecide notes := by
  have howns : textTable.Owns notes.graph someText textRule := find_ok_iff.mp rfl
  refine ⟨by cbv, howns, fun hdecide => ?_⟩
  have hyields : (Derive.field notes (textTable.partsWithin notes 2) body).Yields {}
      ⟨"body", .union [.primitive .string, .primitive .null], none, some (.str "x")⟩ {} := by cbv
  have hne : textRule ≠ .union := fun he => absurd (congrArg Rule.name he) (by decide)
  obtain ⟨u, hu⟩ := hdecide rfl howns hne hyields
  cases (Derive.yields_pure.mp hu).1

end Avro
