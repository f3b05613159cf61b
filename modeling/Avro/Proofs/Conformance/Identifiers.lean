import Avro.Proofs.Conformance.Temporal
import Avro.Proofs.Uuid.Spelling

/-!
# Identifiers as defaults

The default of an identifier is its canonical text. A text is taken as the identifier that it spells, in whichever of
the four spellings, and what spells none is refused (`encode_text_of_spells`, `encode_text_refused`). So each identifier
has one default, no two have the same, and a default that is given as a text again stays as it is
(`denotesIdentifiers`).
-/

namespace Avro

open RuleTable

variable {cx : Setting} {id : TypeId} {d : Descriptor} {u : Uuid} {s : String}

theorem schema_uuid (hget : cx.graph.get? id = some d) (hd : d.shape = .refined .uuid) (n : Nat) (p : Progress) :
    Runs cx (n + 1) p id (.refined .string "uuid") p :=
  runs_succ_iff.mpr (.leaf hget (.refined hd rfl))

theorem encode_uuid (hget : cx.graph.get? id = some d) (hd : d.shape = .refined .uuid) (u : Uuid) :
    (standard.encode cx id (.uuid u)).outcome = some (.ok (.str (String.ofList u.text))) := by
  rw [encode_refined hget hd (by decide), Rule.encodeLogical]

theorem encode_text_of_spells (hget : cx.graph.get? id = some d) (hd : d.shape = .refined .uuid)
    (h : u.Spells s.toList) : (standard.encode cx id (.str s)).outcome = some (.ok (.str (String.ofList u.text))) := by
  rw [encode_refined hget hd (by decide), Rule.encodeLogical, Uuid.parse?_eq_some_iff.mpr h]

theorem encode_text_refused (hget : cx.graph.get? id = some d) (hd : d.shape = .refined .uuid)
    (h : ∀ u : Uuid, ¬ u.Spells s.toList) : (standard.encode cx id (.str s)).outcome = some (.error (.here (.uuid s))) := by
  have hnone : Uuid.parse? s.toList = none :=
    Option.eq_none_iff_forall_ne_some.mpr fun u hu => h u (Uuid.parse?_eq_some_iff.mp hu)
  rw [encode_refined hget hd (by decide), Rule.encodeLogical, hnone]
  rfl

/-- All that is accepted for the type is an identifier or spells one. -/
theorem exists_uuid_of_encode (hget : cx.graph.get? id = some d) (hd : d.shape = .refined .uuid) {v : Value} {j : Json}
    (h : (standard.encode cx id v).outcome = some (.ok j)) : ∃ u : Uuid, j = .str (String.ofList u.text) := by
  rw [encode_refined hget hd (by decide)] at h
  cases v with
  | uuid u =>
    cases h
    exact ⟨u, rfl⟩
  | str s =>
    simp only [Rule.encodeLogical] at h
    split at h
    · next u _ =>
      cases h
      exact ⟨u, rfl⟩
    · cases h
  | _ => cases h

/-- The defaults of the type are identifiers by their canonical texts. -/
structure DenotesIdentifiers (cx : Setting) (id : TypeId) : Prop where
  schema : ∀ n p, Runs cx (n + 1) p id (.refined .string "uuid") p
  /-- Each identifier is accepted, with the digits in groups and without capital letters as its default. -/
  canonical : ∀ u : Uuid, ∃ s : String, (standard.encode cx id (.uuid u)).outcome = some (.ok (.str s)) ∧
    s.length = 36 ∧ ∀ t : String, t = s ↔ u.Grouped t.toList ∧ ∀ c ∈ t.toList, ¬ c.isUpper
  /-- A text that spells an identifier has the default of the identifier. -/
  spelled : ∀ {u : Uuid} {s : String}, u.Spells s.toList →
    (standard.encode cx id (.str s)).outcome = (standard.encode cx id (.uuid u)).outcome
  /-- Two identifiers have two defaults. -/
  distinct : ∀ {u v : Uuid}, (standard.encode cx id (.uuid u)).outcome = (standard.encode cx id (.uuid v)).outcome →
    u = v
  /-- A default that is given as a text stays as it is. -/
  stays : ∀ {v : Value} {j : Json}, (standard.encode cx id v).outcome = some (.ok j) →
    ∃ s, j = .str s ∧ (standard.encode cx id (.str s)).outcome = some (.ok (.str s))
  /-- A text that spells no identifier is refused. -/
  refused : ∀ {s : String}, (∀ u : Uuid, ¬ u.Spells s.toList) →
    (standard.encode cx id (.str s)).outcome = some (.error (.here (.uuid s)))

/-- **Each identifier has one default, however it is spelled.** -/
theorem denotesIdentifiers (hget : cx.graph.get? id = some d) (hd : d.shape = .refined .uuid) :
    DenotesIdentifiers cx id where
  schema := schema_uuid hget hd
  canonical u := by
    refine ⟨_, encode_uuid hget hd u, by rw [String.length_ofList, u.length_text], fun t => ?_⟩
    rw [← Uuid.eq_text_iff, String.ext_iff, String.toList_ofList]
  spelled h := (encode_text_of_spells hget hd h).trans (encode_uuid hget hd _).symm
  distinct {u v} h := by
    rw [encode_uuid hget hd, encode_uuid hget hd] at h
    simp only [Option.some.injEq, Except.ok.injEq, Json.str.injEq, String.ofList_inj] at h
    exact Uuid.text_inj h
  stays {v j} h := by
    obtain ⟨u, rfl⟩ := exists_uuid_of_encode hget hd h
    have hspells : u.Spells (String.ofList u.text).toList := by
      rw [String.toList_ofList]
      exact .grouped (Uuid.grouped_text u)
    exact ⟨_, rfl, encode_text_of_spells hget hd hspells⟩
  refused h := encode_text_refused hget hd h

/-- The type of identifiers. -/
def identifier : Descriptor := { name := "UUID", shape := .refined .uuid }

/-- Identifiers alone. -/
def identifiers : Setting := .of ⟨#[some identifier]⟩ {} none

theorem denotesIdentifiers_identifiers : identifiers.graph.get? 0 = some identifier ∧
    identifier.shape = .refined .uuid ∧ DenotesIdentifiers identifiers 0 ∧
    (standard.encode identifiers 0 (.str "URN:UUID:67E55044-10B1-426f-9247-bb680E5FE0C8")).outcome =
      some (.ok (.str "67e55044-10b1-426f-9247-bb680e5fe0c8")) :=
  ⟨rfl, rfl, denotesIdentifiers (d := identifier) rfl rfl, by cbv⟩

end Avro
