import Avro.Proofs.Encoding.Accepted
import Avro.Proofs.Encoding.Depth
import Avro.Proofs.Json.Entries

/-!
# Defaults that have parts

What is accepted as a default of a sequence, a map or a record, and the encoding that it has, in terms of the encodings
of its items, values and entries.
-/

namespace Avro

open RuleTable

variable {cx : Setting} {id : TypeId} {d : Descriptor} {v : Value} {j : Json}

/-- A default of a sequence is a list of defaults of the elements. -/
theorem encode_sequence_ok {element : Edge} (hget : cx.graph.get? id = some d) (hd : d.shape = .sequence element)
    (hj : cx.graph.isJson d = false) : (standard.encode cx id v).outcome = some (.ok j) ↔
      ∃ items js, v = .list items ∧ j = .arr js ∧
        List.Forall₂ (fun v j => (standard.encode cx element.target v).outcome = some (.ok j)) items js := by
  rw [encode_eq hget (TypeGraph.ruleFor?_sequence hd hj)]
  simp only [Rule.sequence, hd]
  cases v with
  | list items =>
    simp only [Encode.outcome_map_ok, encodeItems_ok]
    constructor
    · rintro ⟨js, hjs, rfl⟩
      exact ⟨items, js, rfl, rfl, hjs⟩
    · rintro ⟨_, js, h, rfl, hjs⟩
      cases h
      exact ⟨js, hjs, rfl⟩
  | _ => simp [Rule.mustBe]

/-- A default of a map has defaults of the values. -/
theorem encode_map_ok {key value : Edge} (hget : cx.graph.get? id = some d) (hd : d.shape = .map key value)
    (hj : cx.graph.isJson d = false) : (standard.encode cx id v).outcome = some (.ok j) ↔
      ∃ es js, v = .dict es ∧ j = Json.ofEntries js ∧ List.Forall₂ (fun x y => y.1 = x.1 ∧
        (standard.encode cx value.target x.2).outcome = some (.ok y.2)) es js := by
  rw [encode_eq hget (TypeGraph.ruleFor?_map hd hj)]
  simp only [Rule.map, hd]
  cases v with
  | dict es =>
    simp only [Encode.outcome_map_ok, encodeEntries_ok]
    constructor
    · rintro ⟨js, hjs, rfl⟩
      exact ⟨es, js, rfl, rfl, hjs⟩
    · rintro ⟨_, js, h, rfl, hjs⟩
      cases h
      exact ⟨js, hjs, rfl⟩
  | _ => simp [Rule.mustBe]

/-- A default of a record has a default for each field. -/
theorem encode_record_ok {fs : List Field} (hget : cx.graph.get? id = some d) (hd : d.shape = .record fs) :
    (standard.encode cx id v).outcome = some (.ok j) ↔
      ∃ es js, v = .dict es ∧ Rule.unknownKey? fs es = none ∧ j = Json.ofEntries js ∧
        List.Forall₂ (fun f y => y.1 = cx.fieldName f ∧ ∃ w, Rule.givenValue? es f = some w ∧
          (standard.encode cx f.type.target w).outcome = some (.ok y.2)) fs js := by
  rw [encode_eq hget (TypeGraph.ruleFor?_record hd)]
  simp only [Rule.record, hd, encodeRecord_ok, encodeFields_ok]
  constructor
  · rintro ⟨es, js, rfl, hk, hjs, rfl⟩
    exact ⟨es, js, rfl, hk, rfl, hjs⟩
  · rintro ⟨es, js, rfl, hk, rfl, hjs⟩
    exact ⟨es, js, rfl, hk, hjs, rfl⟩

end Avro
