import Avro.Derivation.Run

/-!
# Which rule of the library has a type

The rule that the standard table finds depends on the shape of a type alone (`standard_find?`), except that maps and
sequences of JSON documents have the rule for JSON. Named types and their headings are described here too: a heading is
read off the description of the type and the setting, whatever has been derived before.
-/

namespace Avro

/-- Whether the type has a name that a schema defines and refers to: a record, an enumeration or a duration. -/
def Descriptor.isNamed (d : Descriptor) : Bool :=
  match d.shape with
  | .record _ | .enum _ | .refined .duration => true
  | _ => false

/-! ## Rules by shapes -/

/-- Whether the type is stored as the text of a JSON document. -/
def TypeGraph.isJson (g : TypeGraph) (d : Descriptor) : Bool := g.isJsonObject d || g.isJsonArray d

theorem TypeGraph.isJson_eq_false {g : TypeGraph} {d : Descriptor} (hmap : ∀ k v, d.shape ≠ .map k v)
    (hseq : ∀ e, d.shape ≠ .sequence e) : g.isJson d = false := by
  unfold isJson isJsonObject isJsonArray
  cases h : d.shape <;> simp_all

theorem TypeGraph.collection_of_isJson {g : TypeGraph} {d : Descriptor} (h : g.isJson d = true) :
    (∃ key value, d.shape = .map key value) ∨ ∃ element, d.shape = .sequence element := by
  cases hd : d.shape with
  | map key value => exact .inl ⟨key, value, rfl⟩
  | sequence element => exact .inr ⟨element, rfl⟩
  | _ =>
    rw [isJson_eq_false (by simp [hd]) (by simp [hd])] at h
    cases h

/-- The rule of the library for a type, by its shape. -/
def TypeGraph.ruleFor? (g : TypeGraph) (d : Descriptor) : Option Rule :=
  match d.shape with
  | .basic .any => none
  | .basic _ => some .basic
  | .refined .duration => some .duration
  | .refined _ => some .logical
  | .namedString => some .namedString
  | .enum _ => some .enum
  | .record _ => some .record
  | .union _ => some .union
  | .map _ _ => if g.isJson d then some .json else some .map
  | .sequence _ => if g.isJson d then some .json else some .sequence
  | .decimal _ => some .decimal
  | .forward _ => some .forward

namespace TypeGraph

variable {g : TypeGraph} {d : Descriptor}

theorem ruleFor?_record {fs : List Field} (hd : d.shape = .record fs) : g.ruleFor? d = some .record := by
  simp [ruleFor?, hd]

theorem ruleFor?_union {members : List Edge} (hd : d.shape = .union members) : g.ruleFor? d = some .union := by
  simp [ruleFor?, hd]

theorem ruleFor?_sequence {element : Edge} (hd : d.shape = .sequence element) (hj : g.isJson d = false) :
    g.ruleFor? d = some .sequence := by simp [ruleFor?, hd, hj]

theorem ruleFor?_map {key value : Edge} (hd : d.shape = .map key value) (hj : g.isJson d = false) :
    g.ruleFor? d = some .map := by simp [ruleFor?, hd, hj]

end TypeGraph

namespace RuleTable

/-- Only the rule for JSON looks further than the shape of a type, and at maps and sequences only. -/
theorem standard_find? (g : TypeGraph) : ∀ d : Descriptor, standard.find? g d = g.ruleFor? d
  | ⟨_, _, _, .basic kind⟩ => by cases kind <;> rfl
  | ⟨_, _, _, .refined kind⟩ => by cases kind <;> rfl
  | ⟨_, _, _, .namedString⟩ => rfl
  | ⟨_, _, _, .enum _⟩ => rfl
  | ⟨_, _, _, .record _⟩ => rfl
  | ⟨_, _, _, .union _⟩ => rfl
  | ⟨_, _, _, .decimal _⟩ => rfl
  | ⟨_, _, _, .forward _⟩ => rfl
  | ⟨name, origin, doc, .map key value⟩ => by
    let d : Descriptor := ⟨name, origin, doc, .map key value⟩
    show Option.map RankedRule.rule (match g.isJson d with | true => some ⟨400, .json⟩ | false => some ⟨1100, .map⟩) =
      if g.isJson d then some Rule.json else some Rule.map
    cases g.isJson d <;> rfl
  | ⟨name, origin, doc, .sequence element⟩ => by
    let d : Descriptor := ⟨name, origin, doc, .sequence element⟩
    show Option.map RankedRule.rule (match g.isJson d with
        | true => some ⟨400, .json⟩
        | false => some ⟨1000, .sequence⟩) = if g.isJson d then some Rule.json else some Rule.sequence
    cases g.isJson d <;> rfl

/-- A rule is found if and only if it is the one for the shape. -/
theorem standard_find_ok {g : TypeGraph} {d : Descriptor} {r : Rule} :
    standard.find g d = .ok r ↔ g.ruleFor? d = some r := by
  unfold find
  rw [standard_find?]
  cases g.ruleFor? d <;> simp

/-! ## Tables of rules of the library -/

/-- The rules of the library. -/
def library : List Rule := standardRules.map RankedRule.rule

/-- All rules of the table are rules of the library. -/
def OfLibrary (t : RuleTable) : Prop := ∀ e ∈ t.entries, e.rule ∈ library

/-- What holds of each rule of the library holds of all. -/
theorem library_cases {P : Rule → Prop} (forward : P .forward) (basic : P .basic) (namedString : P .namedString)
    (json : P .json) (logical : P .logical) (decimal : P .decimal) (duration : P .duration) (enum : P .enum)
    (union : P .union) (sequence : P .sequence) (map : P .map) (record : P .record) : ∀ r ∈ library, P r := by
  simp [library, standardRules, forward, basic, namedString, json, logical, decimal, duration, enum, union, sequence,
    map, record]

theorem ofLibrary_standard : standard.OfLibrary := by
  simp [OfLibrary, library, standard, standardRules, insert, place, empty]

/-- A rule that is found is one of the table. -/
theorem OfLibrary.of_find {t : RuleTable} (ht : t.OfLibrary) {g : TypeGraph} {d : Descriptor} {r : Rule}
    (h : t.find g d = .ok r) : r ∈ library := by
  unfold find find? at h
  cases hf : t.entries.find? fun e => e.rule.handles g d with
  | none => simp [hf] at h
  | some e =>
    simp only [hf, Option.map_some, Except.ok.injEq] at h
    exact h ▸ ht e (List.mem_of_find?_eq_some hf)

theorem library_of_ruleFor? {g : TypeGraph} {d : Descriptor} {r : Rule} (h : g.ruleFor? d = some r) : r ∈ library :=
  ofLibrary_standard.of_find (standard_find_ok.mpr h)

end RuleTable

/-! ## Headings -/

namespace Setting

/-- The namespace of a type: the given one, or else what the mode takes from the origin of the type. -/
def nsOf (cx : Setting) (d : Descriptor) : Option String := Name.chosenNs cx.givenNs cx.options.namespaceMode d.origin

/-- The name and the namespace of a type. -/
def headingOf (cx : Setting) (d : Descriptor) : Heading := ⟨d.name, cx.nsOf d⟩

/-- The full name of a type. -/
def fullNameOf (cx : Setting) (d : Descriptor) : String := (cx.headingOf d).fullName

/-- The name of the type is a name, and its namespace, if it has one, is a namespace. -/
structure ValidHeading (cx : Setting) (d : Descriptor) : Prop where
  name : Name.check d.name = .ok ()
  ns : ∀ n, cx.nsOf d = some n → Name.checkNamespace n = .ok ()

theorem namespaceOf_ok {cx : Setting} {d : Descriptor} {ns : Option String} :
    cx.namespaceOf d = .ok ns ↔ ns = cx.nsOf d ∧ ∀ n, cx.nsOf d = some n → Name.checkNamespace n = .ok () := by
  unfold namespaceOf nsOf
  cases Name.chosenNs cx.givenNs cx.options.namespaceMode d.origin with
  | none => simp [eq_comm]
  | some n => cases h : Name.checkNamespace n <;> simp [h, eq_comm]

end Setting
end Avro
