import Avro.Proofs.Conformance.Basic
import Avro.Proofs.Encoding.Refused
import Avro.Proofs.Json.DocumentDefaults
import Mathlib.Data.List.Basic

/-!
# Null as a default

Null is a default as a value of its own, or as a document that is null. The type of null takes the value, and a type
that is known by its name only takes the document; all other types that are no unions refuse both
(`takesNull_of_encode`, `encode_null_rule`). A union has what its members have (`encode_null_union`). So the encoding of
a default is null if and only if the default is one of the two and the type, or a member of it, takes that one
(`encode_null_iff`). The document gets past a type that refuses the value (`forward_takes_null`).
-/

namespace Avro

open RuleTable

/-- The value is null in the form that the type takes. -/
inductive Descriptor.TakesNull (d : Descriptor) : Value → Prop
  | value : d.shape = .basic .null → TakesNull d .null
  | document {name : String} : d.shape = .forward name → TakesNull d (.json .null)

/-- The type is of the kind, or is a union with a member of the kind. -/
inductive TypeGraph.Offers (g : TypeGraph) (Kind : Descriptor → Prop) (id : TypeId) : Prop
  | self {d : Descriptor} : g.get? id = some d → Kind d → Offers g Kind id
  | member {d e : Descriptor} {members : List Edge} {flat : List TypeId} {m : TypeId} :
      g.get? id = some d → d.shape = .union members → g.flatMembers members = .ok flat → m ∈ flat →
      g.get? m = some e → Kind e → Offers g Kind id

/-- The type is that of null, or a union with that one among its members. -/
def TypeGraph.HasNull (g : TypeGraph) : TypeId → Prop := g.Offers fun d => d.shape = .basic .null

/-- The type is known by its name only, or is a union with such a type among its members. -/
def TypeGraph.HasForward (g : TypeGraph) : TypeId → Prop := g.Offers fun d => ∃ name, d.shape = .forward name

/-! ## Types that are no unions -/

section Rules

variable {cx : Setting} {encode : TypeId → Value → Encode Json} {d : Descriptor} {r : Rule} {v : Value}

theorem encodeBasic_null {o : Options} {kind : Basic} (h : Rule.encodeBasic o kind v = .ok .null) :
    kind = .null ∧ v = .null := by
  unfold Rule.encodeBasic at h
  split at h
  case h_1 => exact ⟨rfl, rfl⟩
  case h_3 | h_4 => split at h <;> cases h
  all_goals cases h

theorem encodeForward_null (h : Rule.encodeForward v = .ok .null) : v = .json .null := by
  unfold Rule.encodeForward at h
  split at h
  · cases h
  · next hvalue =>
    split at h
    · next j hj =>
      cases h
      rcases (Value.form_of_toJson? hj).2.2.mp rfl with rfl | rfl
      · exact absurd rfl hvalue
      · rfl
    · cases h

theorem encodeLogical_ne_null {o : Options} {kind : Refined} : Rule.encodeLogical o kind v ≠ .ok .null := by
  intro h
  unfold Rule.encodeLogical at h
  split at h
  case h_6 => split at h <;> cases h
  all_goals cases h

theorem encodeString_ne_null : Rule.encodeString v ≠ .ok .null := by
  intro h
  unfold Rule.encodeString at h
  split at h <;> cases h

theorem encodeSymbol_ne_null {name : String} {symbols : List String} : Rule.encodeSymbol name symbols v ≠ .ok .null := by
  intro h
  unfold Rule.encodeSymbol at h
  split at h
  · split at h <;> cases h
  · cases h

theorem encodeDocument_ne_null {isArray : Bool} : Rule.encodeDocument isArray v ≠ .ok .null := by
  intro h
  obtain ⟨_, _, hj, _⟩ := encodeDocument_ok_iff.mp h
  cases hj

/-- A rule makes null of null only, in the form that the type takes. -/
theorem takesNull_of_encode (hr : cx.graph.ruleFor? d = some r) (hu : ∀ members, d.shape ≠ .union members)
    (h : (r.encode cx encode d v).outcome = some (.ok .null)) : d.TakesNull v := by
  obtain ⟨name, origin, doc, shape⟩ := d
  cases shape with
  | union members => exact absurd rfl (hu members)
  | basic kind =>
    have hrule : r = .basic := by cases kind <;> cases hr <;> rfl
    subst hrule
    obtain ⟨rfl, rfl⟩ := encodeBasic_null (Option.some.inj h)
    exact .value rfl
  | forward name =>
    cases hr
    obtain rfl := encodeForward_null (Option.some.inj h)
    exact .document rfl
  -- the other rules make strings, numbers, arrays and objects
  | refined kind =>
    cases kind with
    | duration => cases hr; cases h
    | _ => cases hr; exact absurd (Option.some.inj h) encodeLogical_ne_null
  | decimal params =>
    cases hr
    simp only [Rule.decimal] at h
    split at h
    · cases takes_of_encodeDecimal (Option.some.inj h)
    · cases h
  | namedString =>
    cases hr
    exact absurd (Option.some.inj h) encodeString_ne_null
  | enum symbols =>
    cases hr
    exact absurd (Option.some.inj h) encodeSymbol_ne_null
  | sequence | map =>
    simp only [TypeGraph.ruleFor?] at hr
    split at hr <;> cases hr
    · exact absurd (Option.some.inj h) encodeDocument_ne_null
    · simp only [Rule.sequence, Rule.map] at h
      split at h
      · obtain ⟨_, -, hj⟩ := Encode.outcome_map_ok.mp h
        cases hj
      all_goals cases h
  | record fs =>
    cases hr
    obtain ⟨_, _, _, _, _, hj⟩ := encodeRecord_ok.mp h
    cases hj

/-- A rule makes null of null or refuses it, in either form. -/
theorem encode_null_rule (hr : cx.graph.ruleFor? d = some r) (hu : ∀ members, d.shape ≠ .union members)
    (hv : v = .null ∨ v = .json .null) : (r.encode cx encode d v).outcome = some (.ok .null) ∨
      ∃ m, (r.encode cx encode d v).outcome = some (.error m) := by
  obtain ⟨name, origin, doc, shape⟩ := d
  cases shape with
  | union members => exact absurd rfl (hu members)
  | basic kind =>
    have hrule : r = .basic := by cases kind <;> cases hr <;> rfl
    subst hrule
    cases kind <;> rcases hv with rfl | rfl
    case null.inl => exact .inl rfl
    all_goals exact .inr ⟨_, rfl⟩
  | forward name =>
    cases hr
    rcases hv with rfl | rfl
    · exact .inr ⟨_, rfl⟩
    · exact .inl rfl
  | refined kind => cases kind <;> cases hr <;> rcases hv with rfl | rfl <;> exact .inr ⟨_, rfl⟩
  | decimal params =>
    cases hr
    simp only [Rule.decimal]
    split <;> rcases hv with rfl | rfl <;> exact .inr ⟨_, rfl⟩
  | map | sequence =>
    simp only [TypeGraph.ruleFor?] at hr
    split at hr <;> cases hr <;> rcases hv with rfl | rfl <;> exact .inr ⟨_, rfl⟩
  | namedString | enum | record => cases hr; rcases hv with rfl | rfl <;> exact .inr ⟨_, rfl⟩

end Rules

/-! ## All types -/

section Types

variable {cx : Setting} {id : TypeId} {d : Descriptor} {v : Value} {flat : List TypeId}

theorem Descriptor.TakesNull.forms (h : d.TakesNull v) : v = .null ∨ v = .json .null := by
  cases h with
  | value => exact .inl rfl
  | document => exact .inr rfl

/-- A type without a rule refuses all values. -/
theorem refuses_of_noRule (hget : cx.graph.get? id = some d) (hr : cx.graph.ruleFor? d = none) : cx.Refuses id v :=
  ⟨_, encode_noRule hget hr⟩

theorem refuses_of_gone (hget : cx.graph.get? id = none) : cx.Refuses id v := ⟨_, encode_gone hget⟩

/-- A type that is no union takes null in its own form only. -/
theorem encode_null_leaf (hget : cx.graph.get? id = some d) (hu : ∀ members, d.shape ≠ .union members) :
    (standard.encode cx id v).outcome = some (.ok .null) ↔ d.TakesNull v := by
  constructor
  · intro h
    cases hr : cx.graph.ruleFor? d with
    | none => exact absurd ⟨_, h⟩ (refuses_of_noRule hget hr).not_accepts
    | some r =>
      rw [encode_eq hget hr] at h
      exact takesNull_of_encode hr hu h
  · intro h
    cases h with
    | value hd =>
      rw [encode_eq (r := .basic) hget (by simp [TypeGraph.ruleFor?, hd])]
      simp [Rule.basic, hd, Rule.encodeBasic]
    | document hd =>
      rw [encode_eq (r := .forward) hget (by simp [TypeGraph.ruleFor?, hd])]
      rfl

theorem null_or_refuses_leaf (hget : cx.graph.get? id = some d) (hu : ∀ members, d.shape ≠ .union members)
    (hv : v = .null ∨ v = .json .null) :
    (standard.encode cx id v).outcome = some (.ok .null) ∨ cx.Refuses id v := by
  cases hr : cx.graph.ruleFor? d with
  | none => exact .inr (refuses_of_noRule hget hr)
  | some r =>
    unfold Setting.Refuses
    rw [encode_eq hget hr]
    exact encode_null_rule hr hu hv

/-- The first member that makes null of the value stands behind members that refuse it. -/
theorem exists_first_null
    (hall : ∀ m ∈ flat, (standard.encode cx m v).outcome = some (.ok .null) ∨ cx.Refuses m v) {m : TypeId}
    (hm : m ∈ flat) (hnull : (standard.encode cx m v).outcome = some (.ok .null)) :
    ∃ before first after, flat = before ++ first :: after ∧
      (standard.encode cx first v).outcome = some (.ok .null) ∧ ∀ b ∈ before, cx.Refuses b v := by
  rcases cx.refuses_or_first v flat with hrefuse | ⟨before, first, after, rfl, hbefore, hfirst⟩
  · exact absurd ⟨_, hnull⟩ (hrefuse m hm).not_accepts
  · exact ⟨before, first, after, rfl, (hall first (by simp)).resolve_right hfirst, hbefore⟩

/-- A default of a union is null if and only if it is null in a form that some member takes. -/
theorem choose_null (hflat : ∀ m ∈ flat, ∃ e, cx.graph.get? m = some e ∧ ∀ members, e.shape ≠ .union members) :
    (∃ c, (Encode.choose cx.graph (standard.encode cx) flat v).outcome = some (.ok c) ∧ c.encoded = .null) ↔
      ∃ m ∈ flat, ∃ e, cx.graph.get? m = some e ∧ e.TakesNull v := by
  constructor
  · rintro ⟨c, hc, hnull⟩
    obtain ⟨before, after, rfl, -, hok, -⟩ := Encode.choose_ok_iff.mp hc
    have hmem : c.member ∈ before ++ c.member :: after := by simp
    obtain ⟨e, he, hleaf⟩ := hflat c.member hmem
    exact ⟨c.member, hmem, e, he, (encode_null_leaf he hleaf).mp (hnull ▸ hok)⟩
  · rintro ⟨m, hm, e, he, htakes⟩
    have hall : ∀ m ∈ flat, (standard.encode cx m v).outcome = some (.ok .null) ∨ cx.Refuses m v := by
      intro m hm
      obtain ⟨e, he, hleaf⟩ := hflat m hm
      exact null_or_refuses_leaf he hleaf htakes.forms
    have hnull : (standard.encode cx m v).outcome = some (.ok .null) := by
      obtain ⟨e', he', hleaf⟩ := hflat m hm
      cases he.symm.trans he'
      exact (encode_null_leaf he hleaf).mpr htakes
    obtain ⟨before, first, after, rfl, hfirst, hbefore⟩ := exists_first_null hall hm hnull
    exact ⟨⟨first, .null, before ++ after⟩, Encode.choose_ok_iff.mpr ⟨before, after, rfl, rfl, hfirst, hbefore⟩, rfl⟩

theorem leaf_of_mem {members : List Edge} (hget : cx.graph.get? id = some d) (hd : d.shape = .union members)
    (hflat : cx.graph.flatMembers members = .ok flat) :
    ∀ m ∈ flat, ∃ e, cx.graph.get? m = some e ∧ ∀ members, e.shape ≠ .union members := fun _ hm =>
  (TypeGraph.flatMembers_reached hget hd hflat hm).2

theorem encode_null_union {members : List Edge} (hget : cx.graph.get? id = some d) (hd : d.shape = .union members) :
    (standard.encode cx id v).outcome = some (.ok .null) ↔ ∃ flat, cx.graph.flatMembers members = .ok flat ∧
      ∃ m ∈ flat, ∃ e, cx.graph.get? m = some e ∧ e.TakesNull v := by
  cases hflat : cx.graph.flatMembers members with
  | error f =>
    rw [encode_eq hget (TypeGraph.ruleFor?_union hd)]
    simp [Rule.union, hd, Rule.encodeUnion, hflat, Rule.mismatch]
  | ok flat =>
    rw [encode_union_ok hget hd hflat, choose_null (leaf_of_mem hget hd hflat)]
    simp

/-- The encoding of a default is null if and only if the type or one of its members takes it for null. -/
theorem encode_null_offers :
    (standard.encode cx id v).outcome = some (.ok .null) ↔ cx.graph.Offers (fun d => d.TakesNull v) id := by
  cases hget : cx.graph.get? id with
  | none =>
    refine iff_of_false (fun h => (refuses_of_gone hget).not_accepts ⟨_, h⟩) ?_
    rintro (⟨h, -⟩ | ⟨h, -⟩) <;> cases hget.symm.trans h
  | some d =>
    by_cases hu : ∃ members, d.shape = .union members
    · obtain ⟨members, hd⟩ := hu
      rw [encode_null_union hget hd]
      constructor
      · rintro ⟨flat, hflat, m, hm, e, he, htakes⟩
        exact .member hget hd hflat hm he htakes
      · rintro (⟨h, htakes⟩ | ⟨h, hd', hflat, hm, he, htakes⟩) <;> cases hget.symm.trans h
        · cases htakes with
          | value hd' | document hd' => cases hd.symm.trans hd'
        · cases hd.symm.trans hd'
          exact ⟨_, hflat, _, hm, _, he, htakes⟩
    · rw [encode_null_leaf hget (not_exists.mp hu)]
      refine ⟨fun htakes => .self hget htakes, ?_⟩
      rintro (⟨h, htakes⟩ | ⟨h, hd, -⟩) <;> cases hget.symm.trans h
      · exact htakes
      · exact absurd ⟨_, hd⟩ hu

/-- Null in either form is encoded as null, or refused. -/
theorem null_or_refuses (hv : v = .null ∨ v = .json .null) :
    (standard.encode cx id v).outcome = some (.ok .null) ∨ cx.Refuses id v := by
  cases hget : cx.graph.get? id with
  | none => exact .inr (refuses_of_gone hget)
  | some d =>
    by_cases hu : ∃ members, d.shape = .union members
    · obtain ⟨members, hd⟩ := hu
      rw [encode_null_union hget hd, or_iff_not_imp_left]
      intro hnot
      refine refuses_union hget hd fun flat hflat m hm => ?_
      obtain ⟨e, he, hleaf⟩ := leaf_of_mem hget hd hflat m hm
      exact (null_or_refuses_leaf he hleaf hv).resolve_left fun h =>
        hnot ⟨flat, hflat, m, hm, e, he, (encode_null_leaf he hleaf).mp h⟩
    · exact null_or_refuses_leaf hget (not_exists.mp hu) hv

theorem TypeGraph.Offers.forms (h : cx.graph.Offers (fun d => d.TakesNull v) id) : v = .null ∨ v = .json .null := by
  cases h with
  | self _ htakes => exact htakes.forms
  | member _ _ _ _ _ htakes => exact htakes.forms

theorem takesNull_null : d.TakesNull .null ↔ d.shape = .basic .null :=
  ⟨fun h => by cases h; assumption, .value⟩

theorem takesNull_document : d.TakesNull (.json .null) ↔ ∃ name, d.shape = .forward name :=
  ⟨fun h => by cases h with | document hd => exact ⟨_, hd⟩, fun ⟨_, hd⟩ => .document hd⟩

theorem encode_null : (standard.encode cx id .null).outcome = some (.ok .null) ↔ cx.graph.HasNull id := by
  simp only [encode_null_offers, takesNull_null, TypeGraph.HasNull]

/--
**When the encoding of a default is null**: if the default is null itself and the type is that of null or has it among
its members, or if it is a document that is null and the type is known by its name only or has such a member. Null
itself is accepted where it is null, and refused everywhere else.
-/
theorem encode_null_iff (cx : Setting) (id : TypeId) :
    (∀ v, (standard.encode cx id v).outcome = some (.ok .null) ↔
      (v = .null ∧ cx.graph.HasNull id) ∨ (v = .json .null ∧ cx.graph.HasForward id)) ∧
    (∀ j, (standard.encode cx id .null).outcome = some (.ok j) ↔ j = .null ∧ cx.graph.HasNull id) ∧
    (cx.Refuses id .null ↔ ¬ cx.graph.HasNull id) := by
  have hnull : (standard.encode cx id .null).outcome = some (.ok .null) ∨ cx.Refuses id .null :=
    null_or_refuses (.inl rfl)
  refine ⟨fun v => ?_, fun j => ?_, ?_⟩
  · rw [encode_null_offers]
    unfold TypeGraph.HasNull TypeGraph.HasForward
    constructor
    · intro h
      rcases h.forms with rfl | rfl
      · exact .inl ⟨rfl, by simpa only [takesNull_null] using h⟩
      · exact .inr ⟨rfl, by simpa only [takesNull_document] using h⟩
    · rintro (⟨rfl, h⟩ | ⟨rfl, h⟩)
      · simpa only [takesNull_null] using h
      · simpa only [takesNull_document] using h
  · rw [← encode_null]
    rcases hnull with h | ⟨m, hm⟩
    · simp [h, eq_comm]
    · simp [hm]
  · rw [← encode_null]
    rcases hnull with h | ⟨m, hm⟩
    · simp [h, Setting.Refuses]
    · exact iff_of_true ⟨m, hm⟩ (by simp [hm])

end Types

/-! ## A reference that is null -/

/-- A type that is known by its name only. -/
def knownByName : Setting := .of ⟨#[some { name := "Node", shape := .forward "Node" }]⟩ {} none

/-- The document that is null is a default of a type that is known by its name only, which null itself is not. -/
theorem forward_takes_null : (standard.encode knownByName 0 (.json .null)).outcome = some (.ok .null) ∧
    ¬ knownByName.graph.HasNull 0 ∧ knownByName.Refuses 0 .null := by
  have hnot : ¬ knownByName.graph.HasNull 0 := by
    rintro (⟨h, hd⟩ | ⟨h, hd, -⟩) <;> cases h <;> cases hd
  have hrefuse : knownByName.Refuses 0 .null := ⟨_, by cbv⟩
  exact ⟨by cbv, hnot, hrefuse⟩

end Avro
