import Avro.Proofs.Calendar
import Avro.Proofs.Derivation.Step
import Avro.Proofs.Encoding.Accepted
import Avro.Proofs.Json.Bytes
import Avro.Proofs.Tree.Labels

/-!
# Values of schemas

`Conforms tree σ j` says that the JSON value is a default of the schema, where references are to the definitions in
`tree`: a number for numbers, within 32 or 64 bits for integers, a string with one character for each byte for bytes, an
object with the fields of a record in their order, and for a union a value of one of its members. The encodings that
types without parts accept conform to the schemas of these types (`Leaf.conforms`).
-/

namespace Avro

/-- A number, which is finite. -/
def Json.IsNumber : Json → Prop
  | .int _ => True
  | .double x => x.isFinite = true
  | _ => False

/-- The JSON value is a default of the primitive type. -/
def Primitive.Takes : Primitive → Json → Prop
  | .null, .null => True
  | .boolean, .bool _ => True
  | .int, .int i => -2 ^ 31 ≤ i ∧ i < 2 ^ 31
  | .long, .int i => -2 ^ 63 ≤ i ∧ i < 2 ^ 63
  | .float, j | .double, j => j.IsNumber
  | .bytes, .str s => ∀ c ∈ s.toList, c.toNat ≤ 0xFF
  | .string, .str _ => True
  | _, _ => False

/-- The JSON value is a default of the schema. -/
inductive Conforms (tree : Schema) : Schema → Json → Prop
  | primitive {p : Primitive} {j : Json} : p.Takes j → Conforms tree (.primitive p) j
  | logical {base : Primitive} {logicalType : String} {attributes : List (String × Json)} {j : Json} :
      logicalType ≠ "json" → base.Takes j → Conforms tree (.logical base logicalType attributes) j
  /-- A document is the text of it, whatever holds the text. -/
  | document {base : Primitive} {attributes : List (String × Json)} {text : String} :
      Conforms tree (.logical base "json" attributes) (.str text)
  | namedString {fullName text : String} : Conforms tree (.namedString fullName) (.str text)
  | enum {heading : Heading} {doc : Option String} {symbols : List String} {default symbol : String} :
      symbol ∈ symbols → Conforms tree (.enum heading doc symbols default) (.str symbol)
  | array {σ : Schema} {items : List Json} : (∀ j ∈ items, Conforms tree σ j) → Conforms tree (.array σ) (.arr items)
  | map {σ : Schema} {es : Json.Entries} : (∀ e ∈ es, Conforms tree σ e.2) → Conforms tree (.map σ) (.obj es)
  | record {heading : Heading} {doc : Option String} {fields : List (SchemaField Schema)} {es : Json.Entries} :
      es.map Prod.fst = fields.map SchemaField.name → (∀ x ∈ fields.zip es, Conforms tree x.1.type x.2.2) →
      Conforms tree (.record heading doc fields) (.obj es)
  | union {σ : Schema} {σs : List Schema} {j : Json} : σ ∈ σs → Conforms tree σ j → Conforms tree (.union σs) j
  | reference {fullName : String} {σ : Schema} {j : Json} :
      σ ∈ tree.nodes → σ.definedName? = some fullName → Conforms tree σ j → Conforms tree (.reference fullName) j

/-! ## Values of types without parts -/

section Values

variable {o : Options} {v : Value} {j : Json}

theorem takes_bytesToJson (bs : List UInt8) : Primitive.bytes.Takes (bytesToJson bs) := by
  intro c hc
  rw [String.toList_ofList] at hc
  obtain ⟨b, -, rfl⟩ := List.mem_map.mp hc
  rw [Json.toNat_ofNat_toNat]
  exact Nat.le_of_lt_succ b.toNat_lt

theorem fitsInt32_iff {i : Int} : Rule.fitsInt32 i = true ↔ -2 ^ 31 ≤ i ∧ i < 2 ^ 31 := by
  unfold Rule.fitsInt32
  rw [Bool.and_eq_true, decide_eq_true_eq, decide_eq_true_eq]
  omega

theorem takes_of_encodeBasic {kind : Basic} {p : Primitive} (hp : Rule.primitive? o kind = some p)
    (h : Rule.encodeBasic o kind v = .ok j) : p.Takes j := by
  unfold Rule.encodeBasic at h
  split at h
  · cases hp; cases h; trivial
  · cases hp; cases h; trivial
  · rename_i i
    split at h
    · cases h
    · rename_i hfits
      cases h
      cases hp
      split
      · rename_i h32
        exact fitsInt32_iff.mp (by simpa [h32] using hfits)
      · exact ⟨i.le_toInt, i.toInt_lt⟩
  · rename_i x
    split at h
    · rename_i hx
      cases h
      cases hp
      split <;> exact hx
    · cases h
  · cases h
    cases hp
    split <;> trivial
  · cases hp
    cases h
    exact takes_bytesToJson _
  · cases hp; cases h; trivial
  · cases h

theorem takes_of_encodeLogical {kind : Refined} {base : Primitive} {logicalType : String}
    (hl : Rule.logicalType? o kind = some (base, logicalType)) (h : Rule.encodeLogical o kind v = .ok j) :
    base.Takes j := by
  unfold Rule.encodeLogical at h
  split at h
  · rename_i d
    cases hl
    cases h
    have := d.epochDays_bounds
    show -2 ^ 31 ≤ d.epochDays ∧ d.epochDays < 2 ^ 31
    omega
  · rename_i t
    simp only [Rule.logicalType?, Option.some.injEq] at hl
    cases h
    have := t.millis_lt
    have := t.micros_lt
    split at hl
    · cases hl
      rename_i hmillis
      rw [if_pos hmillis]
      show -2 ^ 31 ≤ (t.millis : Int) ∧ (t.millis : Int) < 2 ^ 31
      omega
    · cases hl
      rename_i hmillis
      rw [if_neg hmillis]
      show -2 ^ 63 ≤ (t.micros : Int) ∧ (t.micros : Int) < 2 ^ 63
      omega
  · rename_i m
    cases hl
    cases h
    split
    · exact m.epochMillis_bounds
    · exact m.epochMicros_bounds
  · cases h
  · cases hl; cases h; trivial
  · split at h
    · cases hl; cases h; trivial
    · cases h
  · cases h

theorem logicalType_ne_json {kind : Refined} {base : Primitive} {logicalType : String}
    (hl : Rule.logicalType? o kind = some (base, logicalType)) : logicalType ≠ "json" := by
  cases kind with
  | date | uuid => cases hl; decide
  | moment =>
    cases hl
    split <;> decide
  | time =>
    simp only [Rule.logicalType?, Option.some.injEq] at hl
    split at hl <;> cases hl <;> decide
  | duration => cases hl

theorem takes_of_encodeDecimal {t : Decimal} (h : Rule.encodeDecimal t v = .ok j) : Primitive.bytes.Takes j := by
  unfold Rule.encodeDecimal at h
  split at h
  · cases h
  · split at h
    · cases h
      exact takes_bytesToJson _
    · cases h

theorem exists_text_of_encodeDocument {isArray : Bool} (h : Rule.encodeDocument isArray v = .ok j) :
    ∃ text, j = .str text := by
  unfold Rule.encodeDocument at h
  split at h
  · cases h; exact ⟨_, rfl⟩
  · cases h; exact ⟨_, rfl⟩
  · cases h

end Values

/-- What a type without parts accepts conforms to its schema, if more is known of the type than its name. -/
theorem Leaf.conforms {cx : Setting} {d : Descriptor} {σ tree : Schema} (hσ : Leaf cx d σ)
    (hforward : ∀ name, d.shape ≠ .forward name) {encode : TypeId → Value → Encode Json} {r : Rule} {v : Value}
    {j : Json} (hr : cx.graph.ruleFor? d = some r) (h : (r.encode cx encode d v).outcome = some (.ok j)) :
    Conforms tree σ j := by
  cases hσ with
  | @basic kind p hd hp =>
    have hrule : r = .basic := by
      unfold TypeGraph.ruleFor? at hr
      rw [hd] at hr
      cases kind <;> cases hr <;> rfl
    subst hrule
    simp only [Rule.basic, hd, Encode.outcome_ofExcept, Option.some.injEq] at h
    exact .primitive (takes_of_encodeBasic hp h)
  | @refined kind base logicalType hd hl =>
    have hrule : r = .logical := by
      unfold TypeGraph.ruleFor? at hr
      rw [hd] at hr
      cases kind <;> cases hr <;> first | rfl | cases hl
    subst hrule
    simp only [Rule.logical, hd, Encode.outcome_ofExcept, Option.some.injEq] at h
    exact .logical (logicalType_ne_json hl) (takes_of_encodeLogical hl h)
  | namedString hd =>
    simp only [TypeGraph.ruleFor?, hd, Option.some.injEq] at hr
    subst hr
    simp only [Rule.namedString, Encode.outcome_ofExcept, Option.some.injEq] at h
    unfold Rule.encodeString at h
    split at h
    · cases h; exact .namedString
    · cases h
  | decimal hd ht =>
    simp only [TypeGraph.ruleFor?, hd, Option.some.injEq] at hr
    subst hr
    simp only [Rule.decimal] at h
    split at h
    · simp only [Encode.outcome_ofExcept, Option.some.injEq] at h
      exact .logical (by decide) (takes_of_encodeDecimal h)
    · cases h
  | json hj =>
    have hrule : r = .json := by
      unfold TypeGraph.ruleFor? at hr
      split at hr <;> simp_all [TypeGraph.isJson_eq_false]
    subst hrule
    simp only [Rule.json, Encode.outcome_ofExcept, Option.some.injEq] at h
    obtain ⟨text, rfl⟩ := exists_text_of_encodeDocument h
    exact .document
  | forward hd => exact absurd hd (hforward _)

end Avro
